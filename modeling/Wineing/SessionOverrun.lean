import Wineing.MarketOverrun
import Wineing.RemoteSession

/-!
# How far a replay runs on after the response to a stop

The response to a stop leaves on `cchan_out` after its command has been published. From then
on an application that makes no other start gets at most two more messages of market data,
also while requests of other calls are still on their way.
-/

namespace Wineing
open CStringMemory GuardedRuns

/-- The request in place `k` is acknowledged, and from there on there are no starts. -/
structure StopsAt (k : ℕ) (log : ControlLog) : Prop where
  acknowledged : ∃ x, log[k]? = some x ∧ x.2.isOk = true
  no_start : ∀ j x, k ≤ j → log[j]? = some x → x.1.type ≠ .marketStart

theorem RequestType.command_lt {type : RequestType} (h : type ≠ .marketStart) :
    type.command < wineingCtrlCmdMarketRun := by
  cases type with
  | marketStart => exact absurd rfl h
  | marketStop | shutdown => decide

namespace ControlLog

def acknowledgedBefore (log : ControlLog) (k : ℕ) : ℕ := (acknowledged (log.take k)).length

theorem acknowledged_append (xs ys : ControlLog) :
    acknowledged (xs ++ ys) = acknowledged xs ++ acknowledged ys := by
  simp only [acknowledged, List.filter_append, List.map_append]

end ControlLog

section Logs

variable {log : ControlLog} {k : ℕ}

theorem StopsAt.type_ne (h : StopsAt k log) {j : ℕ} {req : Request}
    (hj : log.acknowledgedBefore k ≤ j) (hreq : log.acknowledged[j]? = some req) :
    req.type ≠ .marketStart := by
  rw [← List.take_append_drop k log, ControlLog.acknowledged_append,
    List.getElem?_append_right hj] at hreq
  obtain ⟨x, hx, rfl⟩ := List.mem_map.mp (List.mem_of_getElem? hreq)
  obtain ⟨i, hi⟩ := List.mem_iff_getElem?.mp (List.mem_of_mem_filter hx)
  rw [List.getElem?_drop] at hi
  exact h.no_start (k + i) x (by omega) hi

theorem StopsAt.acknowledgedBefore_lt (h : StopsAt k log) {n : ℕ} (hn : k < n) :
    log.acknowledgedBefore k < log.acknowledgedBefore n := by
  obtain ⟨x, hx, hok⟩ := h.acknowledged
  have hmem : x ∈ (log.take n).drop k := by
    refine List.mem_of_getElem? (i := 0) ?_
    rw [List.getElem?_drop, List.getElem?_take_of_lt (by omega)]
    exact hx
  have hacknowledged : x.1 ∈ ControlLog.acknowledged ((log.take n).drop k) :=
    List.mem_map_of_mem (List.mem_filter.mpr ⟨hmem, hok⟩)
  have hpos := List.length_pos_of_mem hacknowledged
  have hsplit := List.take_append_drop k (log.take n)
  rw [List.take_take, min_eq_left hn.le] at hsplit
  rw [ControlLog.acknowledgedBefore, ControlLog.acknowledgedBefore, ← hsplit,
    ControlLog.acknowledged_append, List.length_append]
  omega

theorem StopsAt.command_lt (h : StopsAt k log) : log.command < wineingCtrlCmdMarketRun := by
  obtain ⟨x, hx, _⟩ := h.acknowledged
  have hlt := h.acknowledgedBefore_lt (List.getElem?_eq_some_iff.mp hx).1
  have hall : log.acknowledgedBefore log.length = log.acknowledged.length := by
    rw [ControlLog.acknowledgedBefore, List.take_length]
  obtain ⟨req, hreq⟩ : ∃ req, log.acknowledged[log.acknowledged.length - 1]? = some req :=
    ⟨_, List.getElem?_eq_getElem (by omega)⟩
  rw [ControlLog.command_of_getLast? (by rw [List.getLast?_eq_getElem?, hreq])]
  exact RequestType.command_lt (h.type_ne (by omega) hreq)

end Logs

section Server

variable {tapeBasedir : Bytes} {as : List Action} {s s' : State} {a : Action}

/-- What has been answered has been published. -/
def AnswersPublished (as : List Action) (s : State) : Prop :=
  (controlLog as).acknowledgedBefore s.pushed.length < s.lazy.published.length

theorem length_published_mono (hs : ThreadsInv s) (h : Moves tapeBasedir s a s') :
    s.lazy.published.length ≤ s'.lazy.published.length := by
  rcases published_of_moves hs h with hsame | ⟨_, _, hpublished⟩
  · exact hsame ▸ le_rfl
  · rw [hpublished, List.length_append]
    omega

theorem ControlInv.pushed_length_le (hs : ControlInv tapeBasedir as s) :
    s.pushed.length + s.inHand.length = (controlLog as).length := by
  have hlength := congrArg List.length hs.responses
  simpa using hlength

private theorem answersPublished_step (hs : ControlInv tapeBasedir as s) (hp : AnswersPublished as s)
    (h : step tapeBasedir s a = some s') : AnswersPublished (as ++ [a]) s' := by
  have hmoves := moves_of_step h
  have hmono := length_published_mono hs.threads hmoves
  have hlength := hs.pushed_length_le
  have hlog : (controlLog (as ++ [a])).take s.pushed.length =
      (controlLog as).take s.pushed.length := by
    cases ha : a.request with
    | none => rw [controlLog_snoc_none as ha]
    | some x =>
      rw [controlLog_snoc_some as ha, ControlLog.respond, List.take_append_of_le_length (by omega)]
  have hsame : s'.pushed = s.pushed → AnswersPublished (as ++ [a]) s' := by
    intro hpushed
    rw [AnswersPublished, ControlLog.acknowledgedBefore, hpushed, hlog]
    exact hp.trans_le hmono
  cases hmoves with
  | @inPush res pc idle =>
    -- the response pushed is the last of the log
    obtain ⟨hversion, _⟩ := hs.published_of_idle idle (by simp [pc])
    have hnewest := hs.threads.lazy.numbered.newest
    have hall : (s.pushed ++ [res]).length = (controlLog as).length := by
      rw [← hlength]
      simp [State.inHand, pc]
    rw [AnswersPublished, ControlLog.acknowledgedBefore, controlLog_snoc_none as (a := .inPush) rfl,
      hall, List.take_length]
    change _ < s.lazy.published.length
    omega
  | _ => exact hsame rfl

private theorem answersPublished_run {gBuffer : Memory} {buffer : Party → Memory}
    (run : Run (step tapeBasedir) unguarded (initial gBuffer buffer) as s) :
    AnswersPublished as s := by
  refine (run.history (fun as t => ControlInv tapeBasedir as t ∧ AnswersPublished as t)
    ⟨controlInv_initial _ _ _, Nat.zero_lt_one⟩ ?_).2
  rintro as t a u ⟨ht, hp⟩ _ moved
  exact ⟨controlInv_step ht moved, answersPublished_step ht hp moved⟩

theorem newestCmd_lt_of_stopsAt (hs : ControlInv tapeBasedir as s) (hp : AnswersPublished as s)
    {k : ℕ} (hk : k < s.pushed.length) (h : StopsAt k (controlLog as)) :
    s.lazy.newestCmd < wineingCtrlCmdMarketRun := by
  have hlt := h.acknowledgedBefore_lt hk
  have hpublished : _ < s.lazy.published.length := hp
  obtain ⟨j, hj⟩ : ∃ j, s.lazy.published.length = j + 1 + 1 :=
    ⟨s.lazy.published.length - 2, by omega⟩
  obtain ⟨q, hq⟩ : ∃ q, s.lazy.published[j + 1]? = some q :=
    ⟨_, List.getElem?_eq_getElem (by omega)⟩
  rw [LazyState.newestCmd_of_last hj hq]
  obtain ⟨req, hreq, hrecord⟩ := hs.publications j q hq
  rw [hrecord.cmd]
  exact RequestType.command_lt (h.type_ne (by omega) hreq)

end Server

def NoStartCall (_ : Session) : SessionAction → Prop
  | .client (.call (.start _) _ _) => False
  | _ => True

instance (s : Session) : (a : SessionAction) → Decidable (NoStartCall s a)
  | .client (.call (.start _) _ _) => isFalse id
  | .client (.call .stop _ _) | .client (.call .shutdown _ _)
  | .client (.setResponseProcessor _) | .client (.addRequest _) | .client .take | .client .send
  | .client (.answer ..) | .client (.receive _) | .client .processResponse
  | .client (.setDefaultResponseProcessor _) | .server _ | .request _ => isTrue trivial

/-- The calls of a start have thrown or come before place `k` in the queue. -/
def StartsBefore (k : ℕ) (s : Session) : Prop :=
  ∀ i req, s.request i = some req → req.type = .marketStart →
    i ∈ s.queued.take k ∨ i ∈ s.client.thrown

def SessionAction.isMarketRun : SessionAction → Bool
  | .server a => a.isMarketRun
  | _ => false

section Sessions

variable {codec : RequestCodec} {tapeBasedir : Bytes} {gBuffer : Memory} {buffer : Party → Memory}
variable {as cs : List Action} {s s' : Session} {a : SessionAction} {k : ℕ}

theorem mem_take_mono {xs ys : List ℕ} (h : xs <+: ys) {i : ℕ} (hi : i ∈ xs.take k) :
    i ∈ ys.take k :=
  (List.prefix_take_iff.mpr ⟨(List.take_prefix ..).trans h, List.length_take_le ..⟩).subset hi

private theorem startsBefore_step (hs : SessionInv tapeBasedir gBuffer buffer as s)
    (hstarts : StartsBefore k s) (hguard : NoStartCall s a)
    (h : sessionStep codec tapeBasedir s a = some s') : StartsBefore k s' := by
  have hqueued := (queued_prefix_of_step hs h).1
  cases sessionMoves_of_step h with
  | server | request => exact hstarts
  | @client a client own moved =>
    have hkeep : client.calls = s.client.calls → s.client.thrown ⊆ client.thrown →
        StartsBefore k { s with client, queued := s.queued ++ s.client.puts a } := by
      intro hcalls hthrown i req hreq hstart
      rw [Session.request, hcalls] at hreq
      rcases hstarts i req hreq hstart with hbefore | hfailed
      · exact .inl (mem_take_mono hqueued hbefore)
      · exact .inr (hthrown hfailed)
    cases clientMoves_of_step moved with
    | @call method processor nanoTime =>
      intro i req hreq hstart
      obtain ⟨call, hcall, rfl⟩ := Option.map_eq_some_iff.mp hreq
      rcases getElem?_concat_cases hcall with hold | ⟨_, rfl⟩
      · rcases hstarts i _ (Option.map_eq_some_iff.mpr ⟨call, hold, rfl⟩) hstart with hbefore | hfailed
        · exact .inl (mem_take_mono hqueued hbefore)
        · exact .inr hfailed
      · cases method with
        | start => exact hguard.elim
        | stop | shutdown => cases hstart
    | throw => exact hkeep rfl (List.subset_append_left ..)
    | _ => exact hkeep rfl (List.Subset.refl _)

/-- Behind the calls of the starts the server receives none. -/
theorem stopsAt_of_startsBefore (hs : SessionInv tapeBasedir gBuffer buffer cs s)
    (hstarts : StartsBefore k s)
    (hacknowledged : ∃ x, (controlLog cs)[k]? = some x ∧ x.2.isOk = true) :
    StopsAt k (controlLog cs) := by
  refine ⟨hacknowledged, fun j x hj hx hstart => ?_⟩
  obtain ⟨i, hi, hrequest⟩ := hs.call_of_log hx
  obtain ⟨rest, hrest⟩ := hs.asked_prefix
  have hqueued : s.queued[j]? = some i := by
    rw [← hrest, List.getElem?_append_left (List.getElem?_eq_some_iff.mp hi).1, hi]
  rcases hstarts i x.1 hrequest hstart with hbefore | hfailed
  · obtain ⟨l, hl⟩ := List.mem_iff_getElem?.mp hbefore
    obtain ⟨hlt, _⟩ := List.getElem?_eq_some_iff.mp hl
    rw [List.length_take] at hlt
    rw [List.getElem?_take_of_lt (by omega)] at hl
    have hsame := (List.getElem?_inj (by omega) hs.nodup).mp (hl.trans hqueued.symm)
    omega
  · have hnodup := (hs.once.nodup_iff.mpr List.nodup_range).of_append_left
    exact hnodup.disjoint (hs.mem_pending (List.mem_of_getElem? hqueued)) hfailed

theorem controlLog_prefix (as bs : List Action) : controlLog as <+: controlLog (as ++ bs) := by
  induction bs using List.reverseRecOn with
  | nil => simp
  | append_singleton bs b ih =>
    rw [← List.append_assoc]
    cases hb : b.request with
    | none => rwa [controlLog_snoc_none _ hb]
    | some x =>
      rw [controlLog_snoc_some _ hb]
      exact ih.trans (List.prefix_append ..)

/-- A session that has had the response in place `k`, and calls no start. -/
def StopAnswered (tapeBasedir : Bytes) (gBuffer : Memory) (buffer : Party → Memory) (k : ℕ)
    (s : Session) : Prop :=
  ∃ cs, SessionInv tapeBasedir gBuffer buffer cs s ∧ StopsAt k (controlLog cs) ∧ StartsBefore k s

private theorem stopAnswered_step (hs : StopAnswered tapeBasedir gBuffer buffer k s)
    (hguard : RequestsFit tapeBasedir s a) (hnoStart : NoStartCall s a)
    (h : sessionStep codec tapeBasedir s a = some s') :
    StopAnswered tapeBasedir gBuffer buffer k s' := by
  obtain ⟨cs, hinv, hstops, hstarts⟩ := hs
  obtain ⟨bs, hinv'⟩ := sessionInv_step hinv hguard h
  have hstarts' := startsBefore_step hinv hstarts hnoStart h
  obtain ⟨x, hx, hok⟩ := hstops.acknowledged
  obtain ⟨rest, hrest⟩ := controlLog_prefix cs bs
  refine ⟨_, hinv', stopsAt_of_startsBefore hinv' hstarts' ⟨x, ?_, hok⟩, hstarts'⟩
  rw [← hrest, List.getElem?_append_left (List.getElem?_eq_some_iff.mp hx).1, hx]

theorem noStart_of_stopAnswered (hs : StopAnswered tapeBasedir gBuffer buffer k s) (b : Action) :
    NoStart s.server b := by
  obtain ⟨cs, hinv, hstops, _⟩ := hs
  intro _ _
  rw [hinv.control.command]
  exact hstops.command_lt.ne

private theorem server_of_moves (h : SessionMoves codec tapeBasedir s a s') :
    (s'.server = s.server ∧ a.isMarketRun = false) ∨
      ∃ b, step tapeBasedir s.server b = some s'.server ∧ b.isMarketRun = a.isMarketRun := by
  cases h with
  | client => exact .inl ⟨rfl, rfl⟩
  | server other moved => exact .inr ⟨_, moved, rfl⟩
  | request next is moved => exact .inr ⟨_, moved, rfl⟩

theorem server_run_of_stopAnswered {bs : List SessionAction} {t : Session}
    (hs : StopAnswered tapeBasedir gBuffer buffer k s)
    (window : Run (sessionStep codec tapeBasedir)
      (fun s a => RequestsFit tapeBasedir s a ∧ NoStartCall s a) s bs t) :
    ∃ ds, Run (step tapeBasedir) NoStart s.server ds t.server ∧
      ds.countP Action.isMarketRun = bs.countP SessionAction.isMarketRun := by
  refine (window.history (fun bs t => StopAnswered tapeBasedir gBuffer buffer k t ∧
    ∃ ds, Run (step tapeBasedir) NoStart s.server ds t.server ∧
      ds.countP Action.isMarketRun = bs.countP SessionAction.isMarketRun)
    ⟨hs, [], .refl, rfl⟩ ?_).2
  rintro bs t a u ⟨ht, ds, hrun, hcount⟩ ⟨hfits, hnoStart⟩ moved
  refine ⟨stopAnswered_step ht hfits hnoStart moved, ?_⟩
  rcases server_of_moves (sessionMoves_of_step moved) with ⟨hsame, hother⟩ | ⟨b, hb, hsame⟩
  · refine ⟨ds, hsame ▸ hrun, ?_⟩
    simp [List.countP_append, hcount, hother]
  · refine ⟨ds ++ [b], hrun.snoc (noStart_of_stopAnswered ht b) hb, ?_⟩
    simp [List.countP_append, List.countP_singleton, hcount, hsame]

end Sessions

/-- Once the response to a stop or a shutdown has left on `cchan_out`, at most two more messages
of market data are sent and `wininf_nxcore_run` is called at most once more, for as long as the
application calls no start and all its starts came before the stop or could not be queued. Other
calls may be on their way. -/
theorem session_overrun_bounded (codec : RequestCodec) (tapeBasedir : Bytes) (gBuffer : Memory)
    (buffer : Party → Memory) (as : List SessionAction) (s : Session)
    (run : Run (sessionStep codec tapeBasedir) (RequestsFit tapeBasedir)
      (sessionInitial gBuffer buffer) as s)
    (k : ℕ) (res : Response) (hres : s.server.cchanOut[k]? = some res)
    (htype : res.type = .marketStopOk ∨ res.type = .shutdownOk) (hstarts : StartsBefore k s)
    (bs : List SessionAction) (t : Session)
    (window : Run (sessionStep codec tapeBasedir)
      (fun s a => RequestsFit tapeBasedir s a ∧ NoStartCall s a) s bs t) :
    t.server.mchan.length ≤ s.server.mchan.length + 2 ∧
      bs.countP SessionAction.isMarketRun ≤ 1 := by
  obtain ⟨cs, hs⟩ := sessionOk_of_run run
  obtain ⟨x, hx, _, hsame⟩ := hs.log_of_cchanOut hres
  have hok : x.2.isOk = true := by
    rcases htype with htype | htype <;> rw [hsame, htype] <;> rfl
  have hstops := stopsAt_of_startsBefore hs hstarts ⟨x, hx, hok⟩
  have hpublished := answersPublished_run hs.server
  have hpushed : k < s.server.pushed.length :=
    (List.getElem?_eq_some_iff.mp hres).1.trans_le hs.cchanOut_prefix.length_le
  have hover := overrun_of_newestCmd hs.control
    (newestCmd_lt_of_stopsAt hs.control hpublished hpushed hstops)
  obtain ⟨ds, hwindow, hcount⟩ := server_run_of_stopAnswered ⟨cs, hs, hstops, hstarts⟩ window
  exact ⟨mchan_length_le hover hwindow, hcount ▸ marketRun_count_le hover hwindow⟩

/-- A stop that is answered while a callback is under way. -/
def stopAnsweredInCallback : List SessionAction :=
  sendRequest 0 (.start none) 3 ++ serveNext ++
    List.map .server (marketRefresh ++ [.marketRun true, .marketCallback .status] ++
      calls .callback 8) ++ sendRequest 1 .stop 5 ++ serveNext

/-- The message of that callback and the one of the next are still sent. -/
def callbacksAfterStop : List SessionAction :=
  List.map .server ([.marketProcess, .marketCallbackReturn] ++ callbackRefresh .status ++
    [.marketCallbackReturn, .marketReturn])

theorem session_overrun_bounded_two : ∃ s t : Session,
    Run (sessionStep wireCodec []) (RequestsFit []) (sessionInitial (fun _ => 0) (fun _ _ => 0))
      stopAnsweredInCallback s ∧
    Run (sessionStep wireCodec []) (fun s a => RequestsFit [] s a ∧ NoStartCall s a) s
      callbacksAfterStop t ∧
    s.server.cchanOut.map Response.type = [.marketStartOk, .marketStopOk] ∧
    s.server.mchan.length = 0 ∧ t.server.mchan.length = 2 ∧
    t.server.mchan.length ≤ s.server.mchan.length + 2 := by
  obtain ⟨s, t, run, window, h⟩ := exists_runs_of_foldlM_map (sessionStep wireCodec [])
    (RequestsFit []) (fun s a => RequestsFit [] s a ∧ NoStartCall s a)
    (sessionInitial (fun _ => 0) (fun _ _ => 0)) stopAnsweredInCallback callbacksAfterStop
    (fun s t => (s.server.cchanOut, s.server.mchan.length, t.server.mchan.length, s.queued,
      s.client.calls.map Call.request))
    (b := ([⟨3, .marketStartOk, none⟩, ⟨5, .marketStopOk, none⟩], 0, 2, [0, 1],
      [⟨3, .marketStart, none⟩, ⟨5, .marketStop, none⟩])) (by decide +kernel)
  simp only [Prod.mk.injEq] at h
  obtain ⟨hresponses, hbefore, hafter, hqueued, hcalls⟩ := h
  have hstarts : StartsBefore 1 s := by
    intro i req hreq hstart
    rw [Session.request, ← List.getElem?_map, hcalls] at hreq
    rcases i with _ | _ | i
    · simp [hqueued]
    · obtain rfl := Option.some.inj hreq
      cases hstart
    · cases hreq
  have hbound := session_overrun_bounded wireCodec [] _ _ _ s run 1 ⟨5, .marketStopOk, none⟩
    (by rw [hresponses]; rfl) (.inl rfl) hstarts _ t window
  exact ⟨s, t, run, window, by rw [hresponses]; rfl, hbefore, hafter, hbound.1⟩

end Wineing
