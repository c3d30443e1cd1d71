import CryptoBook.EngineThread
import CryptoBook.HonestChecks
import CryptoBook.MarketDataCalls
import CryptoBook.Smoke

/-! # A live run

`RunLive` of `engine/main.cpp`: the market-data thread, the engine thread and the thread that
fetches cross-checks, joined by two rings, and the exit code at the end.  A `LiveRun` is any
run that ends: what each thread was answered until it returned, and how the two sides of each
ring were interleaved.

The exit code is zero if the verifier has found no gap and no cross-check has failed.  The
first never happens, so the code reports the cross-checks alone, and nothing that was pushed
gets lost on the way but what is left in the ring at the end (`exit_code_reports_checks`).
Against an honest exchange the second does not happen either (`honest_run_exits_zero`). -/
namespace Asmm
open Interaction L2Book BookReference Exchange

/-! ## The cross-check thread -/

/-- What the cross-check thread calls.  `msgBytes` is the content of the local `msg`, which is
not initialised. -/
inductive CheckCall where
  | stopLoad
  | sleepS
  | get (host target : String)
  | msgBytes
  | tryPush (msg : CrossCheckMsg)

/-- What it is answered. -/
abbrev CheckCall.Answer : CheckCall → Type
  | .stopLoad => Bool
  | .sleepS => Unit
  | .get _ _ => Option String
  | .msgBytes => CrossCheckMsg
  | .tryPush _ => Bool

abbrev CheckProg := Prog CheckCall CheckCall.Answer

namespace CheckThread
open Prog
variable (parser : String → Option Dom) (f : SymbolFilters) (host target : String)

/-- The inner `for` loop: so many seconds, unless stopped. -/
def wait : Nat → CheckProg Unit
  | 0 => pure ()
  | s + 1 => do
      if ← perform CheckCall.stopLoad then pure ()
      else do
        perform CheckCall.sleepS
        wait s

/-- One fetch: the body becomes a message if it parses and its levels fit. -/
def fetch : CheckProg Unit := do
  match ← perform (CheckCall.get host target) with
  | none => pure ()
  | some body => do
      let out ← perform CheckCall.msgBytes
      match (parseDepthSnapshot parser body f).bind (toCrossCheckMsg · out) with
      | none => pure ()
      | some msg => do
          let _ ← perform (CheckCall.tryPush msg)
          pure ()

/-- The thread's loop. -/
def run (intervalS : Int) (rounds : Nat) : CheckProg Unit :=
  loop (fun _ : Unit => do
    if ← perform CheckCall.stopLoad then pure (.inr ())
    else do
      wait intervalS.toNat
      if ← perform CheckCall.stopLoad then pure (.inr ())
      else do
        fetch parser f host target
        pure (.inl ())) rounds ()

/-- The message a call added to the queue. -/
def pushed : (c : CheckCall) → c.Answer → List CrossCheckMsg
  | .tryPush msg, ok => if ok = true then [msg] else []
  | _, _ => []

/-- The answers under which every parsed body satisfies `S`. -/
def Delivers (S : UInt64 → List LevelUpdate → Prop) : (c : CheckCall) → c.Answer → Prop
  | .get _ _, body => ∀ json, body = some json →
      ∀ snap, parseDepthSnapshot parser json f = some snap → S snap.lastUpdateId snap.updates
  | _, _ => True

/-- The thread watched through what it pushes. -/
def checkMonitor (S : UInt64 → List LevelUpdate → Prop) :
    Monitor CheckCall CheckCall.Answer CrossCheckMsg where
  emit := pushed
  admits := Delivers parser f S
  inv h := ∀ msg ∈ h, msg.InBounds ∧ S msg.lastUpdateId msg.updates

variable {parser f host target} {S : UInt64 → List LevelUpdate → Prop} {h : List CrossCheckMsg}

/-- A call that is not a push. -/
theorem wp_silent {c : CheckCall} {Q : c.Answer → List CrossCheckMsg → Prop}
    (hsilent : ∀ x, pushed c x = []) (hinv : (checkMonitor parser f S).inv h)
    (hQ : ∀ x, Delivers parser f S c x → Q x h) :
    (checkMonitor parser f S).wp Q (Prog.perform c) h :=
  Monitor.wp_perform_silent hsilent hinv hQ

theorem wp_wait (n : Nat) (hinv : (checkMonitor parser f S).inv h) :
    (checkMonitor parser f S).wp (fun _ _ => True) (wait n) h := by
  induction n generalizing h with
  | zero => exact Monitor.wp_pure hinv trivial
  | succ n ih =>
    refine Monitor.wp_ite (wp_silent (fun _ => rfl) hinv fun _ _ => rfl)
      (Monitor.wp_pure hinv trivial) ?_
    exact Monitor.wp_bind (wp_silent (fun _ => rfl) hinv fun _ _ => ih hinv)

theorem wp_fetch (hinv : (checkMonitor parser f S).inv h) :
    (checkMonitor parser f S).wp (fun _ _ => True) (fetch parser f host target) h := by
  refine Monitor.wp_bind (wp_silent (fun _ => rfl) hinv fun body hbody => ?_)
  cases body with
  | none => exact Monitor.wp_pure hinv trivial
  | some json =>
    refine Monitor.wp_bind (wp_silent (fun _ => rfl) hinv fun out _ => ?_)
    cases hmsg : (parseDepthSnapshot parser json f).bind (toCrossCheckMsg · out) with
    | none => exact Monitor.wp_pure hinv trivial
    | some msg =>
      obtain ⟨snap, hparse, hpacked⟩ := Option.bind_eq_some_iff.mp hmsg
      obtain ⟨hid, hbounds, hupdates⟩ := CrossCheckMsg.updates_toCrossCheckMsg hpacked
      have hadded : ∀ ok, (checkMonitor parser f S).inv (h ++ pushed (.tryPush msg) ok) := by
        intro ok
        refine List.forall_mem_append.mpr ⟨hinv, fun msg' hmsg' => ?_⟩
        cases ok with
        | false => cases hmsg'
        | true =>
          rw [List.mem_singleton.mp hmsg', hid, hupdates]
          exact ⟨hbounds, hbody json rfl snap hparse⟩
      refine Monitor.wp_bind (Monitor.wp_perform hinv fun ok _ => ⟨hadded ok, ?_⟩)
      exact Monitor.wp_pure (hadded ok) trivial

/-- **Every message pushed** lists a parsed body. -/
theorem run_pushed (intervalS : Int) (rounds : Nat) (answers : Nat → (c : CheckCall) → c.Answer)
    (hdeliver : ∀ i c, Delivers parser f S c (answers i c)) (calls : Nat) :
    ∀ msg ∈ ((run parser f host target intervalS rounds).exec answers calls).flatMap
      fun x => pushed x.1 x.2, msg.InBounds ∧ S msg.lastUpdateId msg.updates := by
  have hrun : (checkMonitor parser f S).wp (fun _ _ => True)
      (run parser f host target intervalS rounds) [] := by
    refine Monitor.wp_loop (fun _ h => (checkMonitor parser f S).inv h) ?_ rounds (by rintro _ ⟨⟩)
    intro _ h hinv
    refine Monitor.wp_ite (wp_silent (fun _ => rfl) hinv fun _ _ => rfl)
      (Monitor.wp_pure hinv trivial) (Monitor.wp_seq (wp_wait _ hinv) fun _ h hinv => ?_)
    refine Monitor.wp_ite (wp_silent (fun _ => rfl) hinv fun _ _ => rfl)
      (Monitor.wp_pure hinv trivial) (Monitor.wp_seq (wp_fetch hinv) fun _ h hinv => ?_)
    exact Monitor.wp_pure hinv hinv
  exact Monitor.wp_exec hrun answers hdeliver calls

end CheckThread

/-! ## The account of the engine -/

namespace Engine
variable {F : Type} [Double F]

/-- What a pop does to the verifier and the counters. -/
theorem counters_pop (e : Engine F) (ev : MarketEvent) :
    (e.pop ev).1.verifier = e.verifier.step ev ∧
    (e.pop ev).1.crosscheckLevels = e.crosscheckLevels ∧
    (e.pop ev).1.hasCrossChecks = e.hasCrossChecks ∧
    (e.pop ev).1.counters =
      { e.counters with
        eventsApplied := e.counters.eventsApplied + 1
        snapshotsApplied := e.counters.snapshotsApplied + ev.startsSnapshot.toNat } := by
  obtain ⟨_, _, _, _, hframe⟩ := (e.absorb ev).1.tick_frame ev
  show ((e.absorb ev).1.tick ev).1.verifier = _ ∧ ((e.absorb ev).1.tick ev).1.crosscheckLevels = _ ∧
    ((e.absorb ev).1.tick ev).1.hasCrossChecks = _ ∧ ((e.absorb ev).1.tick ev).1.counters = _
  rw [hframe]
  unfold absorb
  cases ev.startsSnapshot <;> exact ⟨rfl, rfl, rfl, rfl⟩

end Engine

namespace EngineThread
variable {F : Type} [Double F]

/-- The events taken. -/
def eventsOf (h : List Taken) : List MarketEvent := h.filterMap Sum.getLeft?

/-- The messages taken. -/
def checksOf (h : List Taken) : List CrossCheckMsg := h.filterMap Sum.getRight?

/-- The book that the events make: a snapshot start clears it. -/
def bookOf (evs : List MarketEvent) : L2Book :=
  evs.foldl (fun b ev => (if ev.startsSnapshot then b.clear else b).applyEvent ev) L2Book.empty

/-- The ring that they leave. -/
def ringOf (evs : List MarketEvent) : List MarketEvent :=
  evs.foldl (fun ring ev => Engine.recordRing (if ev.startsSnapshot then [] else ring) ev) []

/-- What `CrossCheck` says of a message that is taken after some events. -/
def verdict (levels : Int) (evs : List MarketEvent) (msg : CrossCheckMsg) : CrossCheckResult :=
  (CrossCheck.crossCheck (bookOf evs) msg (ringOf evs) levels L2Book.empty).1

/-- What it says of the messages taken, each after the events taken before it. -/
def verdictsAfter (levels : Int) : List MarketEvent → List Taken → List CrossCheckResult
  | _, [] => []
  | evs, .inl ev :: h => verdictsAfter levels (evs ++ [ev]) h
  | evs, .inr msg :: h => verdict levels evs msg :: verdictsAfter levels evs h

def verdicts (levels : Int) (h : List Taken) : List CrossCheckResult := verdictsAfter levels [] h

theorem bookOf_concat (evs : List MarketEvent) (ev : MarketEvent) :
    bookOf (evs ++ [ev]) =
      (if ev.startsSnapshot then (bookOf evs).clear else bookOf evs).applyEvent ev :=
  List.foldl_append

theorem ringOf_concat (evs : List MarketEvent) (ev : MarketEvent) :
    ringOf (evs ++ [ev]) =
      Engine.recordRing (if ev.startsSnapshot then [] else ringOf evs) ev :=
  List.foldl_append

theorem levels_bookOf (evs : List MarketEvent) (side : Side) :
    (bookOf evs).levels side = (L2Book.empty.applyAll (updatesSince evs)).levels side := by
  induction evs using List.reverseRecOn generalizing side with
  | nil => rfl
  | append_singleton evs ev ih =>
    rw [bookOf_concat, levels_applyEvent, updatesSince_concat]
    cases ev.startsSnapshot with
    | true => rfl
    | false =>
      rw [if_neg Bool.false_ne_true, if_neg Bool.false_ne_true]
      refine (levels_applyAll_congr ih ev.updates side).trans ?_
      rw [L2Book.applyAll, L2Book.applyAll, L2Book.applyAll, List.foldl_append]

/-- The ring holds the last of the events since the last snapshot. -/
theorem ringOf_suffix (evs : List MarketEvent) : ringOf evs <:+ sinceSnapshot evs := by
  induction evs using List.reverseRecOn with
  | nil => exact List.suffix_refl _
  | append_singleton evs ev ih =>
    rw [ringOf_concat, sinceSnapshot_concat]
    cases ev.startsSnapshot with
    | true => exact List.suffix_refl _
    | false =>
      obtain ⟨trimmed, htrimmed⟩ := Engine.recordRing_suffix (ringOf evs) ev
      have hrecorded : Engine.recordRing (ringOf evs) ev <:+ ringOf evs ++ [ev] :=
        ⟨trimmed, htrimmed.symm⟩
      exact hrecorded.trans (List.suffix_append_self_iff.mpr ih)

theorem verdictsAfter_concat (levels : Int) (evs : List MarketEvent) (h : List Taken) :
    (∀ ev, verdictsAfter levels evs (h ++ [.inl ev]) = verdictsAfter levels evs h) ∧
    ∀ msg, verdictsAfter levels evs (h ++ [.inr msg]) =
      verdictsAfter levels evs h ++ [verdict levels (evs ++ eventsOf h) msg] := by
  induction h generalizing evs with
  | nil =>
    refine ⟨fun _ => rfl, fun msg => ?_⟩
    rw [eventsOf, List.filterMap_nil, List.append_nil]
    rfl
  | cons x h ih =>
    cases x with
    | inl ev =>
      have hevents : evs ++ [ev] ++ eventsOf h = evs ++ eventsOf (.inl ev :: h) := by
        simp [eventsOf]
      rw [← hevents]
      exact ih (evs ++ [ev])
    | inr msg =>
      obtain ⟨hevent, hmsg⟩ := ih evs
      refine ⟨fun ev => ?_, fun msg' => ?_⟩
      · exact congrArg (verdict levels evs msg :: ·) (hevent ev)
      · exact congrArg (verdict levels evs msg :: ·) (hmsg msg')

/-- Every message taken gets one verdict. -/
theorem length_verdictsAfter (levels : Int) (evs : List MarketEvent) (h : List Taken) :
    (verdictsAfter levels evs h).length = (checksOf h).length := by
  induction h generalizing evs with
  | nil => rfl
  | cons x h ih =>
    cases x with
    | inl ev => exact ih (evs ++ [ev])
    | inr msg => exact congrArg (· + 1) (ih evs)

theorem count_verdicts (said : List CrossCheckResult) :
    said.count .kMatch + said.count .kMismatch + said.count .kSkipped = said.length := by
  induction said with
  | nil => rfl
  | cons v said ih =>
    cases v <;> simp <;> omega

/-- What the engine has made of the elements it took. -/
structure Account (levels : Int) (h : List Taken) (e : Engine F) : Prop where
  book : e.book = bookOf (eventsOf h)
  ring : e.ring = ringOf (eventsOf h)
  live : e.bookLive = liveAfter (eventsOf h)
  verifier : e.verifier = Runs.run GapVerifier.step .fresh (eventsOf h)
  applied : e.counters.eventsApplied = (eventsOf h).length
  snapshots : e.counters.snapshotsApplied = (eventsOf h).countP MarketEvent.startsSnapshot
  matched : e.counters.crosscheckOk = (verdicts levels h).count .kMatch
  mismatched : e.counters.crosscheckFail = (verdicts levels h).count .kMismatch
  skipped : e.counters.crosscheckSkipped = (verdicts levels h).count .kSkipped
  levels_eq : e.crosscheckLevels = levels

theorem Account.pop {levels : Int} {h : List Taken} {e : Engine F} (ha : Account levels h e)
    (ev : MarketEvent) : Account levels (h ++ [.inl ev]) (e.pop ev).1 := by
  have hevents : eventsOf (h ++ [.inl ev]) = eventsOf h ++ [ev] := List.filterMap_append ..
  have hverdicts : verdicts levels (h ++ [.inl ev]) = verdicts levels h :=
    (verdictsAfter_concat levels [] h).1 ev
  obtain ⟨hverifier, hlevels, -, hcounters⟩ := e.counters_pop ev
  obtain ⟨hbook, hlive⟩ := e.book_pop ev
  constructor
  · rw [hevents, bookOf_concat, hbook, ha.book]
  · rw [hevents, ringOf_concat, e.ring_pop, ha.ring]
  · rw [hevents, hlive, liveAfter_concat, ha.live]
  · rw [hevents, hverifier, Runs.run_append, ← ha.verifier]
    rfl
  · rw [hevents, hcounters, List.length_append, ← ha.applied]
    rfl
  · rw [hevents, hcounters, List.countP_append, ← ha.snapshots]
    cases hstarts : ev.startsSnapshot <;> simp [hstarts]
  · rw [hverdicts, hcounters]
    exact ha.matched
  · rw [hverdicts, hcounters]
    exact ha.mismatched
  · rw [hverdicts, hcounters]
    exact ha.skipped
  · rw [hlevels]
    exact ha.levels_eq

omit [Double F] in
theorem Account.check {levels : Int} {h : List Taken} {e : Engine F} (ha : Account levels h e)
    (msg : CrossCheckMsg) : Account levels (h ++ [.inr msg]) (e.handleCrossCheck msg) := by
  have hevents : eventsOf (h ++ [.inr msg]) = eventsOf h :=
    (List.filterMap_append ..).trans (List.append_nil _)
  have hverdicts : verdicts levels (h ++ [.inr msg]) =
      verdicts levels h ++ [verdict levels (eventsOf h) msg] :=
    (verdictsAfter_concat levels [] h).2 msg
  -- the scratch book is cleared first, so what it held does not matter
  have hsaid : (CrossCheck.crossCheck e.book msg e.ring e.crosscheckLevels e.scratch).1 =
      verdict levels (eventsOf h) msg := by
    rw [ha.book, ha.ring, ha.levels_eq]
    rfl
  have hmatched := ha.matched
  have hmismatched := ha.mismatched
  have hskipped := ha.skipped
  unfold Engine.handleCrossCheck
  generalize CrossCheck.crossCheck e.book msg e.ring e.crosscheckLevels e.scratch = r at hsaid
  obtain ⟨said, scratch⟩ := r
  dsimp only at hsaid
  rw [← hsaid] at hverdicts
  refine ⟨hevents ▸ ha.book, hevents ▸ ha.ring, hevents ▸ ha.live, hevents ▸ ha.verifier,
    ?_, ?_, ?_, ?_, ?_, ha.levels_eq⟩
  · rw [hevents]
    cases said <;> exact ha.applied
  · rw [hevents]
    cases said <;> exact ha.snapshots
  all_goals
    rw [hverdicts, List.count_append]
    clear hsaid
    cases said <;> simp [*]

omit [Double F] in
/-- An engine that differs in what the account does not speak of. -/
theorem Account.congr {levels : Int} {h : List Taken} {e e' : Engine F} (ha : Account levels h e)
    (hsame : e'.book = e.book ∧ e'.bookLive = e.bookLive ∧ e'.ring = e.ring ∧
      e'.verifier = e.verifier ∧ e'.crosscheckLevels = e.crosscheckLevels)
    (hcounters : ∃ n, e'.counters = { e.counters with staleEpisodes := n }) :
    Account levels h e' := by
  obtain ⟨hbook, hlive, hring, hverifier, hlevels⟩ := hsame
  obtain ⟨n, hcounters⟩ := hcounters
  refine ⟨hbook.trans ha.book, hring.trans ha.ring, hlive.trans ha.live,
    hverifier.trans ha.verifier, ?_, ?_, ?_, ?_, ?_, hlevels.trans ha.levels_eq⟩ <;> rw [hcounters]
  · exact ha.applied
  · exact ha.snapshots
  · exact ha.matched
  · exact ha.mismatched
  · exact ha.skipped

theorem account_maintained (levels : Int) : Maintained (F := F) (Account levels) where
  pop _ _ ev ha := ha.pop ev
  check _ _ msg _ ha := ha.check msg
  stale h e nowNs ha := by
    refine ha.congr ?_ ?_ <;> unfold Engine.checkStale <;> repeat' split
    all_goals first | exact ⟨rfl, rfl, rfl, rfl, rfl⟩ | exact ⟨_, rfl⟩
  timedFlush h e nowNs ha := by
    unfold Engine.timedFlush
    split
    · exact ha.congr ⟨rfl, rfl, rfl, rfl, rfl⟩ ⟨_, rfl⟩
    · exact ha
  flush h e ha := ha.congr ⟨rfl, rfl, rfl, rfl, rfl⟩ ⟨_, rfl⟩

/-- What the exchange sent to both queues, so far as it was taken. -/
structure Honest (ex : Nat → LevelUpdate) (h : List Taken) : Prop where
  stretch : ∀ pre, pre <+: eventsOf h → Stretch ex (sinceSnapshot pre)
  whole : Unfragmented (eventsOf h)
  checks : ∀ msg ∈ checksOf h, CrossCheck.Whole ex msg

theorem Honest.of_append {ex : Nat → LevelUpdate} {h h' : List Taken}
    (hh : Honest ex (h ++ h')) : Honest ex h := by
  have hevents : eventsOf (h ++ h') = eventsOf h ++ eventsOf h' := List.filterMap_append ..
  have hchecks : checksOf (h ++ h') = checksOf h ++ checksOf h' := List.filterMap_append ..
  refine ⟨fun pre hpre => hh.stretch pre ?_, fun ev hev => hh.whole ev ?_,
    fun msg hmsg => hh.checks msg ?_⟩
  · rw [hevents]
    exact hpre.trans (List.prefix_append ..)
  · rw [hevents]
    exact List.mem_append_left _ hev
  · rw [hchecks]
    exact List.mem_append_left _ hmsg

/-- **An honest check does not fail**, whenever it is made. -/
theorem Honest.no_mismatch {ex : Nat → LevelUpdate} {levels : Int} {h : List Taken}
    (hh : Honest ex h) (hint : levels < 2 ^ 31) : .kMismatch ∉ verdicts levels h := by
  induction h using List.reverseRecOn with
  | nil => exact List.not_mem_nil
  | append_singleton h x ih =>
    have hbefore := hh.of_append
    cases x with
    | inl ev =>
      rw [verdicts, (verdictsAfter_concat levels [] h).1 ev]
      exact ih hbefore
    | inr msg =>
      have hmsg : msg ∈ checksOf (h ++ [.inr msg]) := by simp [checksOf]
      have hverdict : verdict levels (eventsOf h) msg ≠ .kMismatch :=
        CrossCheck.crossCheck_not_mismatch (hbefore.stretch _ (List.prefix_refl _))
          (fun ev hev => hbefore.whole ev ((sinceSnapshot_suffix _).subset hev))
          (ringOf_suffix _) (hh.checks msg hmsg) (levels_bookOf _) hint
      rw [verdicts, (verdictsAfter_concat levels [] h).2 msg, List.mem_append, not_or,
        List.mem_singleton]
      exact ⟨ih hbefore, hverdict.symm⟩

end EngineThread

/-! ## Diffs that fit into one event -/

/-- A diff of at most `kMaxLevelsPerEvent` levels is not fragmented. -/
theorem DepthDiff.unfragmented {d : DepthDiff} (hfits : d.updates.length ≤ kMaxLevelsPerEvent)
    (tsRecvNs : Int64) : Unfragmented (fragments (fun _ => d.header tsRecvNs) d.bids d.asks) := by
  have hsplit : Split d.bids d.asks (fragments (fun _ => d.header tsRecvNs) d.bids d.asks) :=
    fragmentLoop_split (Nat.lt_succ_self _)
  have hlength : (fragments (fun _ => d.header tsRecvNs) d.bids d.asks).length = 1 := by
    have hlevels : d.updates.length = d.bids.length + d.asks.length := by
      simp [DepthDiff.updates, sideUpdates, levelUpdates]
    rw [hsplit.length_eq]
    unfold kMaxLevelsPerEvent at *
    omega
  have hflags := (d.group tsRecvNs).map_continues
  intro ev hev _
  obtain ⟨only, honly⟩ := List.length_eq_one_iff.mp hlength
  rw [honly] at hflags hev
  rw [List.mem_singleton.mp hev]
  exact List.head_eq_of_cons_eq hflags

theorem MarketDataThread.delivers_mono {S S' : UInt64 → List LevelUpdate → Prop}
    {D D' : UInt64 → UInt64 → List LevelUpdate → Prop} {parser : String → Option Dom}
    {params : MarketDataParams} (hS : ∀ lastId us, S lastId us → S' lastId us)
    (hD : ∀ U u us, D U u us → D' U u us) {c : MdCall} {x : MdCall.Answer c}
    (hx : Delivers S D parser params c x) : Delivers S' D' parser params c x := by
  cases c with
  | get host target => exact fun json hjson snap hparse => hS _ _ (hx json hjson snap hparse)
  | read => exact fun hok d hread => hD _ _ _ (hx hok d hread)
  | stopLoad | connect | close | nowNs | tryPush | sleepMs => trivial

theorem MarketDataThread.supplies_unfragmented {S : UInt64 → List LevelUpdate → Prop}
    {D : UInt64 → UInt64 → List LevelUpdate → Prop} {parser : String → Option Dom}
    {params : MarketDataParams} (hfits : ∀ U u us, D U u us → us.length ≤ kMaxLevelsPerEvent)
    {c : MdCall} {x : MdCall.Answer c} (hx : Delivers S D parser params c x) :
    Supplies (fun ev => ev.kind = .kDepthDiff → ev.continues = false) parser params c x := by
  cases c with
  | get host target =>
    intro json hjson snap hparse recon now ev hev hkind
    rw [(recon.onSnapshot_group snap now).chain.kind_eq ev hev] at hkind
    cases hkind
  | read =>
    intro hok now scratch hparse
    obtain ⟨d, hread, rfl⟩ := Option.map_eq_some_iff.mp hparse
    exact DepthDiff.unfragmented (hfits _ _ _ (hx hok d hread)) now
  | stopLoad | connect | close | nowNs | tryPush | sleepMs => trivial

/-! ## The whole run -/

/-- `CrossCheckQueue`: `SpscQueue<CrossCheckMsg, 4>`. -/
def kCrossCheckQueueLog : Fin 64 := ⟨2, by decide⟩

namespace Main
variable {F : Type}

/-- The engine that `RunLive` constructs. -/
def startEngine [Double F] (cfg : AppConfig F) (doLog : Bool) : Engine F :=
  Engine.new cfg.marketData.staleThresholdMs true cfg.marketData.crosscheckLevels
    (if doLog then some EventLogWriter.create else none)
    (if cfg.strategyEnabled then some (Strategy.new cfg.strategy false) else none)

/-- `cc_target`. -/
def checkTarget (cfg : AppConfig F) : String :=
  "/api/v3/depth?symbol=" ++ cfg.symbol ++ "&limit=" ++ toString cfg.marketData.crosscheckDepthLimit

/-- The body of `cc_thread`. -/
def checkThread (parser : String → Option Dom) (cfg : AppConfig F) (rounds : Nat) :
    CheckProg Unit :=
  CheckThread.run parser (makeParams cfg).filters (makeParams cfg).restHost (checkTarget cfg)
    cfg.marketData.crosscheckIntervalS rounds

end Main

/-- A run of `RunLive` up to the last `join`.  The stop flag is set by a signal or by the
deadline, at any time, so each thread is answered freely when it loads the flag. -/
structure LiveRun (F : Type) [Double F] (parser : String → Option Dom) (cfg : AppConfig F)
    (doLog : Bool) where
  rounds : Nat
  md : (MarketDataThread.run parser (Main.makeParams cfg) rounds .new).Returned
  engine : (EngineThread.run rounds (Main.startEngine cfg doLog)).Returned
  check : (Main.checkThread parser cfg rounds).Returned
  queue : List (SpscQueue.Turn MarketEvent)
  checkQueue : List (SpscQueue.Turn CrossCheckMsg)
  pushed : BoundedFifo.pushes (SpscQueue.run kMarketQueueLog .zero queue).answers =
    md.trace.flatMap fun x => MarketDataThread.pushed x.1 x.2
  popped : BoundedFifo.pops (SpscQueue.run kMarketQueueLog .zero queue).answers =
    EngineThread.eventsOf (engine.trace.flatMap fun x => EngineThread.took x.1 x.2)
  checkPushed : BoundedFifo.pushes (SpscQueue.run kCrossCheckQueueLog .zero checkQueue).answers =
    check.trace.flatMap fun x => CheckThread.pushed x.1 x.2
  checkPopped : BoundedFifo.pops (SpscQueue.run kCrossCheckQueueLog .zero checkQueue).answers =
    EngineThread.checksOf (engine.trace.flatMap fun x => EngineThread.took x.1 x.2)

namespace LiveRun
open Pipeline
variable {F : Type} [Double F] {parser : String → Option Dom} {cfg : AppConfig F} {doLog : Bool}
  (r : LiveRun F parser cfg doLog)

/-- The events pushed. -/
def emitted : List MarketEvent := r.md.trace.flatMap fun x => MarketDataThread.pushed x.1 x.2

/-- The messages pushed. -/
def fetched : List CrossCheckMsg := r.check.trace.flatMap fun x => CheckThread.pushed x.1 x.2

/-- What the engine took from both queues. -/
def taken : List Taken := r.engine.trace.flatMap fun x => EngineThread.took x.1 x.2

/-- What `RunLive` returns. -/
def exitCode : Int :=
  if r.engine.result.verifier.undetectedGaps = 0 ∧ r.engine.result.counters.crosscheckFail = 0
  then 0 else 1

theorem account :
    EngineThread.Account cfg.marketData.crosscheckLevels r.taken r.engine.result :=
  EngineThread.run_maintains (EngineThread.account_maintained _)
    ⟨rfl, rfl, rfl, rfl, rfl, rfl, rfl, rfl, rfl, rfl⟩ r.engine.answers r.engine.returns

/-- What is left in the ring at the end. -/
theorem emitted_eq : ∃ left, r.emitted = EngineThread.eventsOf r.taken ++ left ∧
    left.length ≤ 2 ^ kMarketQueueLog.val := by
  obtain ⟨left, hinv⟩ := SpscQueue.inv_run kMarketQueueLog .zero r.queue
  refine ⟨left, ?_, hinv.length_le⟩
  rw [emitted, ← r.pushed, hinv.fifo, r.popped]
  rfl

theorem fetched_eq : ∃ left, r.fetched = EngineThread.checksOf r.taken ++ left ∧
    left.length ≤ 2 ^ kCrossCheckQueueLog.val := by
  obtain ⟨left, hinv⟩ := SpscQueue.inv_run kCrossCheckQueueLog .zero r.checkQueue
  refine ⟨left, ?_, hinv.length_le⟩
  rw [fetched, ← r.checkPushed, hinv.fifo, r.checkPopped]
  rfl

/-- What the engine took from the market queue is a feed. -/
theorem taken_feed {S : UInt64 → List LevelUpdate → Prop}
    {D : UInt64 → UInt64 → List LevelUpdate → Prop}
    (hdeliver : ∀ i c, MarketDataThread.Delivers S D parser (Main.makeParams cfg) c
      (r.md.answers i c)) : Feed S D (EngineThread.eventsOf r.taken) .idle := by
  obtain ⟨ph, hfeed⟩ := MarketDataThread.run_feed r.rounds .new r.md.answers hdeliver r.md.calls
  obtain ⟨left, hleft, -⟩ := r.emitted_eq
  have hwhole : Feed S D (EngineThread.eventsOf r.taken ++ left) ph := hleft ▸ hfeed
  exact hwhole.cut

theorem undetectedGaps_eq_zero : r.engine.result.verifier.undetectedGaps = 0 := by
  have hfeed : Feed (fun _ _ => True) (fun _ _ _ => True) (EngineThread.eventsOf r.taken) .idle :=
    r.taken_feed fun i c => by cases c <;> simp [MarketDataThread.Delivers]
  rw [r.account.verifier]
  exact (GapVerifier.accepts_feed hfeed).1.invariant (I := fun v => v.undetectedGaps = 0)
    (fun v ev hv hok => (GapVerifier.undetectedGaps_step hok).trans hv) rfl

/-- **What the exit code of a live run reports.**  For every behaviour of the network, the
clocks and the stop flag and every interleaving: the verifier has found no gap, so the code is
zero exactly if no cross-check failed.  The engine has applied what was pushed, in order,
except for what is left in the ring at the end, and its book and its counters are those of the
applied events.  Every message it popped was counted once, by what `CrossCheck` said of it:
matched, failed or skipped. -/
theorem exit_code_reports_checks (r : LiveRun F parser cfg doLog) :
    let e := r.engine.result
    let said := EngineThread.verdicts cfg.marketData.crosscheckLevels r.taken
    e.verifier.undetectedGaps = 0 ∧
    (r.exitCode = 0 ↔ e.counters.crosscheckFail = 0) ∧
    (∃ applied left, r.emitted = applied ++ left ∧ left.length ≤ 4096 ∧
      e.counters.eventsApplied = applied.length ∧
      e.counters.snapshotsApplied = applied.countP MarketEvent.startsSnapshot ∧
      e.bookLive = liveAfter applied ∧
      ∀ side, e.book.levels side = (L2Book.empty.applyAll (updatesSince applied)).levels side) ∧
    (∃ checked left, r.fetched = checked ++ left ∧ left.length ≤ 4 ∧
      e.counters.crosscheckOk + e.counters.crosscheckFail + e.counters.crosscheckSkipped =
        checked.length ∧ said.length = checked.length) ∧
    e.counters.crosscheckOk = said.count .kMatch ∧
    e.counters.crosscheckFail = said.count .kMismatch ∧
    e.counters.crosscheckSkipped = said.count .kSkipped := by
  intro e said
  have hgaps : e.verifier.undetectedGaps = 0 := r.undetectedGaps_eq_zero
  have haccount := r.account
  obtain ⟨left, hemitted, hleft⟩ := r.emitted_eq
  obtain ⟨leftChecks, hfetched, hleftChecks⟩ := r.fetched_eq
  have hsaid : said.length = (EngineThread.checksOf r.taken).length :=
    EngineThread.length_verdictsAfter ..
  have hsum : e.counters.crosscheckOk + e.counters.crosscheckFail +
      e.counters.crosscheckSkipped = (EngineThread.checksOf r.taken).length := by
    rw [haccount.matched, haccount.mismatched, haccount.skipped, EngineThread.count_verdicts]
    exact hsaid
  have hlevels : ∀ side, e.book.levels side = (L2Book.empty.applyAll
      (updatesSince (EngineThread.eventsOf r.taken))).levels side := by
    intro side
    rw [haccount.book]
    exact EngineThread.levels_bookOf _ side
  refine ⟨hgaps, ?_, ⟨_, left, hemitted, hleft, haccount.applied, haccount.snapshots,
    haccount.live, hlevels⟩, ⟨_, leftChecks, hfetched, hleftChecks, hsum, hsaid⟩,
    haccount.matched, haccount.mismatched, haccount.skipped⟩
  unfold exitCode
  split
  · next hzero => exact iff_of_true rfl hzero.2
  · next hzero => exact iff_of_false (by decide) fun hfail => hzero ⟨hgaps, hfail⟩

/-- **An honest exchange is never reported.**  Let every parsed message be true of one sequence
of level updates, the snapshots complete, every diff within one event, and let the prices that
each side leads through in a snapshot or a diff fit into `kMaxLevels`.  Then `CrossCheck` says
of no message that it is a mismatch, and the run exits with zero. -/
theorem honest_run_exits_zero (r : LiveRun F parser cfg doLog) (ex : Nat → LevelUpdate)
    (hlevels : cfg.marketData.crosscheckLevels < 2 ^ 31)
    (hmd : ∀ i c, MarketDataThread.Delivers (FullSnapshot ex)
      (fun U u us => FullDiff ex U u us ∧ us.length ≤ kMaxLevelsPerEvent)
      parser (Main.makeParams cfg) c (r.md.answers i c))
    (hcheck : ∀ i c, CheckThread.Delivers parser (Main.makeParams cfg).filters (FullSnapshot ex) c
      (r.check.answers i c)) :
    .kMismatch ∉ EngineThread.verdicts cfg.marketData.crosscheckLevels r.taken ∧
      r.exitCode = 0 := by
  have hfeed : Feed (FullSnapshot ex) (FullDiff ex) (EngineThread.eventsOf r.taken) .idle :=
    r.taken_feed fun i c =>
      MarketDataThread.delivers_mono (fun _ _ h => h) (fun _ _ _ h => h.1) (hmd i c)
  obtain ⟨left, hemitted, -⟩ := r.emitted_eq
  obtain ⟨leftChecks, hfetched, -⟩ := r.fetched_eq
  have hwhole : Unfragmented (EngineThread.eventsOf r.taken) := by
    intro ev hev
    refine MarketDataThread.run_pushed r.rounds r.md.answers (fun i c =>
      MarketDataThread.supplies_unfragmented (fun _ _ _ h => h.2) (hmd i c)) r.md.calls ev ?_
    show ev ∈ r.emitted
    rw [hemitted]
    exact List.mem_append_left _ hev
  have hhonest : EngineThread.Honest ex r.taken := by
    refine ⟨fun pre hpre => (Exchange.stretch_feed hfeed).1 pre hpre fun ev hev =>
      hwhole ev (hpre.subset hev), hwhole, fun msg hmsg => ?_⟩
    have hpushed : msg ∈ r.fetched := by
      rw [hfetched]
      exact List.mem_append_left _ hmsg
    obtain ⟨hbounds, hsnap⟩ := CheckThread.run_pushed _ _ r.check.answers hcheck _ msg hpushed
    exact ⟨hbounds, hsnap⟩
  have hnone := hhonest.no_mismatch hlevels
  have hfail : r.engine.result.counters.crosscheckFail = 0 :=
    r.account.mismatched.trans (List.count_eq_zero.mpr hnone)
  exact ⟨hnone, if_pos ⟨r.undetectedGaps_eq_zero, hfail⟩⟩

/-! ### A run -/

/-- Whole prices and quantities, a check of the best level every second, no strategy. -/
def tinyConfig : AppConfig Strategy.Whole where
  symbol := "BTCUSDT"
  restUrl := "https://testnet.binance.vision"
  wsMarketUrl := "wss://data-stream.binance.vision"
  logDir := "logs"
  marketData := { MarketDataConfig.defaults with
    pxScale := 0, qtyScale := 0, crosscheckIntervalS := 1, crosscheckLevels := 1 }
  strategyEnabled := false
  strategy := .defaults
  orders := .defaults
  apiKey := ""
  apiSecret := ""

/-- A snapshot and a diff, then the stop. -/
def tinyMd (i : Nat) : (c : MdCall) → MdCall.Answer c
  | .stopLoad => decide (10 ≤ i)
  | c => tinyAnswers i c

/-- One fetch of the same snapshot. -/
def tinyCheck (i : Nat) : (c : CheckCall) → c.Answer
  | .stopLoad => decide (7 ≤ i)
  | .sleepS => ()
  | .get _ _ => some tinySnapshot
  | .msgBytes => .zero
  | .tryPush _ => true

/-- The events that the market-data thread pushes. -/
def tinyPushed : List MarketEvent :=
  ((MarketDataThread.run tinyParser (Main.makeParams tinyConfig) 4 .new).exec tinyMd 13).flatMap
    fun x => MarketDataThread.pushed x.1 x.2

/-- The message that the cross-check thread pushes. -/
def tinyFetched : List CrossCheckMsg :=
  ((Main.checkThread tinyParser tinyConfig 4).exec tinyCheck 8).flatMap
    fun x => CheckThread.pushed x.1 x.2

/-- The engine finds both events and the message in its first round. -/
def tinyEngine (i : Nat) : (c : EngineCall) → c.Answer
  | .stopLoad => decide (7 ≤ i)
  | .tryPop => tinyPushed[i - 1]?
  | .tryPopCheck => tinyFetched[i - 4]?
  | .nowNs => 0
  | .sleepUs => ()

/-- Pushed, then popped, one after the other. -/
def inTurn {T : Type} (values : List T) : List (SpscQueue.Turn T) :=
  values.flatMap fun v => List.replicate 5 (.producer v) ++ List.replicate 6 .consumer

def tinyRun : LiveRun Strategy.Whole tinyParser tinyConfig false where
  rounds := 4
  md := ⟨tinyMd, 13, _, rfl⟩
  engine := ⟨tinyEngine, 9, _, rfl⟩
  check := ⟨tinyCheck, 8, _, rfl⟩
  queue := inTurn tinyPushed
  checkQueue := inTurn tinyFetched
  pushed := by decide +kernel
  popped := by decide +kernel
  checkPushed := by rfl
  checkPopped := by rfl

theorem tiny_room : Room tinyExchange 0 2 := by
  refine ⟨fun _ => [7, 9], fun _ => (by decide : 2 ≤ kMaxLevels), fun i _ hi side px hne => ?_⟩
  have hkeys : (side, px) = (.kBid, 7) ∨ (side, px) = (.kAsk, 9) := by
    by_contra hother
    obtain ⟨hbid, hask⟩ := not_or.mp hother
    refine hne ?_
    obtain rfl | rfl | rfl : i = 0 ∨ i = 1 ∨ i = 2 := by omega
    · rfl
    · rw [tinyExchange_book.1, Function.update_of_ne hbid]
      rfl
    · rw [tinyExchange_book.2, Function.update_of_ne hask, Function.update_of_ne hbid]
      rfl
  rcases hkeys with hkey | hkey <;> simp [(Prod.mk.inj hkey).2]

theorem tiny_fullSnapshot : FullSnapshot tinyExchange 1 [⟨.kBid, 7, 5⟩] := by
  obtain ⟨prices, hlength, hprices⟩ := tiny_room
  exact ⟨tiny_snapshotOf, prices, hlength, fun i _ hi =>
    hprices i (Nat.zero_le i) (Nat.le_succ_of_le hi)⟩

theorem parse_tinySnapshot : parseDepthSnapshot tinyParser tinySnapshot ⟨0, 0⟩ =
    some ⟨1, [⟨7, 5⟩], []⟩ := rfl

theorem read_tinyDiff : readDepthDiff tinyParser tinyDiff ⟨0, 0⟩ =
    some ⟨1, 2, 0, [⟨7, 5⟩], [⟨9, 3⟩]⟩ := rfl

theorem honest_run_exits_zero_tiny :
    (.kMismatch ∉ EngineThread.verdicts 1 tinyRun.taken ∧ tinyRun.exitCode = 0) ∧
      tinyRun.engine.result.counters.crosscheckOk = 1 := by
  refine ⟨tinyRun.honest_run_exits_zero tinyExchange (by decide) (fun i c => ?_) fun i c => ?_,
    by decide +kernel⟩
  · cases c with
    | get host target =>
      rintro json ⟨rfl⟩ snap hsnap
      obtain rfl := Option.some.inj (hsnap.symm.trans parse_tinySnapshot)
      exact tiny_fullSnapshot
    | read =>
      rintro - d hd
      obtain rfl := Option.some.inj (hd.symm.trans read_tinyDiff)
      exact ⟨⟨tiny_diffOf, tiny_room⟩, by decide⟩
    | stopLoad | connect | close | nowNs | tryPush | sleepMs => trivial
  · cases c with
    | get host target =>
      rintro json ⟨rfl⟩ snap hsnap
      obtain rfl := Option.some.inj (hsnap.symm.trans parse_tinySnapshot)
      exact tiny_fullSnapshot
    | stopLoad | sleepS | msgBytes | tryPush => trivial

end LiveRun
end Asmm
