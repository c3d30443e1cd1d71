import CryptoBook.Reconstructor

/-! # Fragmentation

`ParseDepthDiff` and `Reconstructor::OnSnapshot` each contain a loop that cuts a list of bids
and a list of asks into events of at most 64 levels.  The loops are the same but for the
fields they put around the levels, and both are `fragmentLoop` of `BinanceDepth` with their
own header.

`Split` describes the pieces: each but the last is full, and no ask stands before a bid.
Count and contents are read off it by induction (`Split.length_eq`, `Split.bids_eq`,
`Split.asks_eq`), the flags off `Group`. -/
namespace Asmm
open L2Book

/-! ## The pieces -/

/-- The events carry the bids and asks in pieces, all but the last full. -/
inductive Split : List DepthLevel → List DepthLevel → List MarketEvent → Prop
  | last {ev : MarketEvent} {bids asks : List DepthLevel} (carries : Carries ev bids asks)
      (fits : bids.length + asks.length ≤ kMaxLevelsPerEvent) : Split bids asks [ev]
  | more {ev : MarketEvent} {bids asks restBids restAsks : List DepthLevel}
      {evs : List MarketEvent} (carries : Carries ev bids asks)
      (full : bids.length + asks.length = kMaxLevelsPerEvent)
      (left : restBids ≠ [] ∨ restAsks ≠ []) (rest : Split restBids restAsks evs) :
      Split (bids ++ restBids) (asks ++ restAsks) (ev :: evs)

section Loop
variable {header : Bool → MarketEvent} {rounds : Nat} {first : Bool} {bids asks : List DepthLevel}

/-- The loop splits what it is given. -/
theorem fragmentLoop_split (hrounds : bids.length + asks.length < rounds) :
    Split bids asks (fragmentLoop header rounds first bids asks) := by
  induction rounds generalizing first bids asks with
  | zero => exact absurd hrounds (Nat.not_lt_zero _)
  | succ rounds ih =>
    obtain ⟨sentBids, sentAsks, hsends⟩ := fragment_sends (header first) bids asks
    rw [fragmentLoop]
    have hless := hsends.length_lt
    obtain ⟨hbids, hasks, hcarries, hfits, hfull, -⟩ := hsends
    generalize fragment (header first) bids asks = r at *
    obtain ⟨ev, restBids, restAsks⟩ := r
    dsimp only at *
    by_cases hleft : restBids ≠ [] ∨ restAsks ≠ []
    · rw [if_pos hleft, hbids, hasks]
      exact .more hcarries (hfull hleft) hleft (ih (by have := hless hleft; omega))
    · rw [if_neg hleft]
      obtain ⟨rfl, rfl⟩ : restBids = [] ∧ restAsks = [] := by simpa using hleft
      rw [List.append_nil] at hbids hasks
      subst hbids hasks
      exact .last hcarries hfits

/-- The loop ends by itself: it does not matter how many rounds it is allowed. -/
theorem fragmentLoop_rounds {rounds' : Nat} (hrounds : bids.length + asks.length < rounds)
    (hrounds' : bids.length + asks.length < rounds') :
    fragmentLoop header rounds first bids asks = fragmentLoop header rounds' first bids asks := by
  induction rounds generalizing rounds' first bids asks with
  | zero => exact absurd hrounds (Nat.not_lt_zero _)
  | succ rounds ih =>
    obtain _ | rounds' := rounds'
    · exact absurd hrounds' (Nat.not_lt_zero _)
    · obtain ⟨_, _, hsends⟩ := fragment_sends (header first) bids asks
      rw [fragmentLoop, fragmentLoop]
      split
      · next hleft =>
        have hless := hsends.length_lt hleft
        rw [ih (by omega) (Nat.lt_of_lt_of_le hless (Nat.le_of_lt_succ hrounds'))]
      · rfl

/-- What holds of every round's event holds of all of them. -/
theorem forall_mem_fragmentLoop {P : MarketEvent → Prop}
    (hround : ∀ first bids asks, P (fragment (header first) bids asks).1) :
    ∀ ev ∈ fragmentLoop header rounds first bids asks, P ev := by
  induction rounds generalizing first bids asks with
  | zero => nofun
  | succ rounds ih =>
    rw [fragmentLoop]
    split
    · exact List.forall_mem_cons.mpr ⟨hround .., ih⟩
    · exact List.forall_mem_singleton.mpr (hround ..)

/-- How an event divides its array. -/
def MarketEvent.division (ev : MarketEvent) :
    Vector DepthLevel kMaxLevelsPerEvent × UInt8 × UInt8 :=
  (ev.levels, ev.numBids, ev.numAsks)

/-- The pieces do not depend on what the header puts around the levels. -/
theorem fragmentLoop_division {header' : Bool → MarketEvent} {first' : Bool}
    (hlevels : ∀ first first', (header first).levels = (header' first').levels) :
    (fragmentLoop header rounds first bids asks).map MarketEvent.division =
      (fragmentLoop header' rounds first' bids asks).map MarketEvent.division := by
  induction rounds generalizing first first' bids asks with
  | zero => rfl
  | succ rounds ih =>
    have hround : (fragment (header first) bids asks).1.division =
          (fragment (header' first') bids asks).1.division ∧
        (fragment (header first) bids asks).2 = (fragment (header' first') bids asks).2 := by
      simp only [fragment, MarketEvent.division, hlevels first first', and_self]
    rw [fragmentLoop, fragmentLoop, ← hround.2]
    split
    · rw [List.map_cons, List.map_cons, hround.1, ih]
    · rw [List.map_singleton, List.map_singleton, hround.1]

end Loop

namespace Split
variable {bids asks : List DepthLevel} {evs : List MarketEvent}

theorem length_eq (h : Split bids asks evs) :
    evs.length =
      max 1 ((bids.length + asks.length + (kMaxLevelsPerEvent - 1)) / kMaxLevelsPerEvent) := by
  induction h with
  | last carries fits =>
    rw [List.length_singleton]
    unfold kMaxLevelsPerEvent at *
    omega
  | @more ev bids asks restBids restAsks evs carries full left rest ih =>
    have hpos : 0 < restBids.length + restAsks.length := by
      rcases left with h | h <;> have := List.length_pos_iff.mpr h <;> omega
    rw [List.length_cons, ih, List.length_append, List.length_append]
    unfold kMaxLevelsPerEvent at *
    omega

theorem fits (h : Split bids asks evs) :
    ∀ ev ∈ evs, ev.numBids.toNat + ev.numAsks.toNat ≤ kMaxLevelsPerEvent := by
  induction h with
  | last carries fits =>
    rw [List.forall_mem_singleton, carries.numBids_eq, carries.numAsks_eq]
    exact fits
  | more carries full left rest ih =>
    refine List.forall_mem_cons.mpr ⟨?_, ih⟩
    rw [carries.numBids_eq, carries.numAsks_eq]
    exact Nat.le_of_eq full

theorem bids_eq (h : Split bids asks evs) : evs.flatMap MarketEvent.bidLevels = bids := by
  induction h with
  | last carries fits => rw [List.flatMap_singleton, carries.bidLevels_eq]
  | more carries full left rest ih => rw [List.flatMap_cons, carries.bidLevels_eq, ih]

theorem asks_eq (h : Split bids asks evs) : evs.flatMap MarketEvent.askLevels = asks := by
  induction h with
  | last carries fits => rw [List.flatMap_singleton, carries.askLevels_eq]
  | more carries full left rest ih => rw [List.flatMap_cons, carries.askLevels_eq, ih]

end Split

/-! ## The flags -/

namespace Group
variable {kind : EventKind} {U u : UInt64} {starts : Bool} {us : List LevelUpdate}
  {evs : List MarketEvent}

/-- Exactly the last fragment is not continued. -/
theorem map_continues (h : Group kind U u starts us evs) :
    evs.map MarketEvent.continues = List.replicate (evs.length - 1) true ++ [false] := by
  induction h with
  | last frag => exact congrArg ([·]) frag.cont_eq
  | @more starts ev us evs frag rest ih =>
    obtain ⟨front, more, rfl, -⟩ := rest.chain.front
    rw [List.map_cons, ih, frag.cont_eq]
    rfl

/-- At most the first fragment starts a snapshot. -/
theorem map_startsSnapshot (h : Group kind U u starts us evs) :
    evs.map MarketEvent.startsSnapshot = starts :: List.replicate (evs.length - 1) false := by
  induction h with
  | last frag => exact congrArg ([·]) frag.starts_eq
  | @more starts ev us evs frag rest ih =>
    obtain ⟨front, more, rfl, -⟩ := rest.chain.front
    rw [List.map_cons, ih, frag.starts_eq]
    rfl

end Group

/-! ## The whole message -/

/-- What an event says besides its levels and flags. -/
def MarketEvent.stamp (ev : MarketEvent) :
    UInt64 × Int64 × Int64 × UInt64 × UInt64 × UInt64 × EventKind :=
  (ev.seq, ev.tsRecvNs, ev.tsExchangeMs, ev.firstUpdateId, ev.finalUpdateId, ev.prevUpdateId,
    ev.kind)

/-- Events that say together what a message says. -/
structure Faithful (header : MarketEvent) (starts : Bool) (bids asks : List DepthLevel)
    (evs : List MarketEvent) : Prop where
  count : evs.length =
    max 1 ((bids.length + asks.length + (kMaxLevelsPerEvent - 1)) / kMaxLevelsPerEvent)
  fits : ∀ ev ∈ evs, ev.numBids.toNat + ev.numAsks.toNat ≤ kMaxLevelsPerEvent
  bids_eq : evs.flatMap MarketEvent.bidLevels = bids
  asks_eq : evs.flatMap MarketEvent.askLevels = asks
  stamped : ∀ ev ∈ evs, ev.stamp = header.stamp
  continued : evs.map MarketEvent.continues = List.replicate (evs.length - 1) true ++ [false]
  started : evs.map MarketEvent.startsSnapshot = starts :: List.replicate (evs.length - 1) false
  applies : ∀ b : L2Book, evs.foldl applyEvent b =
    { b.applyAll (sideUpdates bids asks) with
      lastUpdateId := header.finalUpdateId, lastUpdateTsNs := header.tsRecvNs }

/-- Events with the same stamp, one after the other. -/
theorem foldl_applyEvent_eq {header : MarketEvent} {evs : List MarketEvent} (hne : evs ≠ [])
    (hstamp : ∀ ev ∈ evs, ev.stamp = header.stamp) (b : L2Book) :
    evs.foldl applyEvent b = { b.applyAll (evs.flatMap MarketEvent.updates) with
      lastUpdateId := header.finalUpdateId, lastUpdateTsNs := header.tsRecvNs } := by
  have hlevels := levels_foldl_applyEvent b evs
  have hlast : (evs.foldl applyEvent b).lastUpdateId = header.finalUpdateId ∧
      (evs.foldl applyEvent b).lastUpdateTsNs = header.tsRecvNs := by
    obtain ⟨front, last, rfl⟩ := (List.eq_nil_or_concat evs).resolve_left hne
    have hstamp := hstamp last (by simp)
    simp only [MarketEvent.stamp, Prod.mk.injEq] at hstamp
    rw [List.concat_eq_append, List.foldl_append]
    exact ⟨hstamp.2.2.2.2.1, hstamp.2.1⟩
  generalize evs.foldl applyEvent b = after at *
  obtain ⟨bids, asks, id, ts⟩ := after
  obtain ⟨rfl, rfl⟩ := hlast
  obtain rfl : bids = _ := hlevels .kBid
  obtain rfl : asks = _ := hlevels .kAsk
  rfl

/-- **The fragments say what the message says**, whatever the header puts around them. -/
theorem fragments_faithful {kind : EventKind} {firstId finalId : UInt64} {starts : Bool}
    {header : Bool → MarketEvent}
    (hheader : ∀ first, Header kind firstId finalId (starts && first) (header first))
    (hstamp : ∀ first, (header first).stamp = (header true).stamp) (bids asks : List DepthLevel) :
    Faithful (header true) starts bids asks (fragments header bids asks) := by
  have hsplit : Split bids asks (fragments header bids asks) :=
    fragmentLoop_split (Nat.lt_succ_self _)
  have hgroup := fragments_group hheader bids asks
  have hstamped : ∀ ev ∈ fragments header bids asks, ev.stamp = (header true).stamp :=
    forall_mem_fragmentLoop fun first bids asks => hstamp first
  refine ⟨hsplit.length_eq, hsplit.fits, hsplit.bids_eq, hsplit.asks_eq, hstamped,
    hgroup.map_continues, hgroup.map_startsSnapshot, fun b => ?_⟩
  obtain ⟨front, rest, hcons, -⟩ := hgroup.chain.front
  rw [foldl_applyEvent_eq (by rw [hcons]; exact List.cons_ne_nil _ _) hstamped,
    hgroup.flatMap_updates]

/-! ## The output parameter -/

/-- The loop as it stands in the source, with `out.push_back(ev)` in each round. -/
def pushFragments (header : Bool → MarketEvent) :
    Nat → Bool → List DepthLevel → List DepthLevel → List MarketEvent → List MarketEvent
  | 0, _, _, _, out => out
  | rounds + 1, first, bids, asks, out =>
      let r := fragment (header first) bids asks
      let out := out ++ [r.1]
      if r.2.1 ≠ [] ∨ r.2.2 ≠ [] then pushFragments header rounds false r.2.1 r.2.2 out else out

theorem pushFragments_eq {header : Bool → MarketEvent} {rounds : Nat} {first : Bool}
    {bids asks : List DepthLevel} (out : List MarketEvent) :
    pushFragments header rounds first bids asks out =
      out ++ fragmentLoop header rounds first bids asks := by
  induction rounds generalizing first bids asks out with
  | zero => exact (List.append_nil _).symm
  | succ rounds ih =>
    rw [pushFragments, fragmentLoop]
    split
    · rw [ih, List.append_assoc]
      rfl
    · rfl

/-- `ParseDepthDiff` with the caller's vector. -/
def parseDepthDiffInto (parser : String → Option Dom) (json : String) (f : SymbolFilters)
    (tsRecvNs : Int64) (out : List MarketEvent) : Bool × List MarketEvent := Id.run do
  let some doc := parser json | return (false, out)
  let some firstId := (doc.field "U").bind Dom.getUint64 | return (false, out)
  let some finalId := (doc.field "u").bind Dom.getUint64 | return (false, out)
  let exchangeMs := ((doc.field "E").bind Dom.getInt64).getD 0
  let some b := (doc.field "b").bind Dom.getArray | return (false, out)
  let some a := (doc.field "a").bind Dom.getArray | return (false, out)
  let some bids := readLevels f b | return (false, out)
  let some asks := readLevels f a | return (false, out)
  let d : DepthDiff := ⟨firstId, finalId, exchangeMs, bids, asks⟩
  return (true, pushFragments (fun _ => d.header tsRecvNs) (bids.length + asks.length + 1) true
    bids asks out)

/-- The vector grows by the fragments of the diff, or nothing happens to it. -/
theorem parseDepthDiffInto_eq (parser : String → Option Dom) (json : String) (f : SymbolFilters)
    (tsRecvNs : Int64) (out : List MarketEvent) :
    parseDepthDiffInto parser json f tsRecvNs out =
      match parseDepthDiff parser json f tsRecvNs with
      | none => (false, out)
      | some evs => (true, out ++ evs) := by
  unfold parseDepthDiffInto parseDepthDiff readDepthDiff
  -- the early returns, in the order of the source
  rcases parser json with _ | doc
  · rfl
  simp only [Option.pure_def, Option.bind_eq_bind, Option.bind_some, ← Option.bind_assoc]
  rcases (doc.field "U").bind Dom.getUint64 with _ | firstId
  · rfl
  rcases (doc.field "u").bind Dom.getUint64 with _ | finalId
  · rfl
  rcases (doc.field "b").bind Dom.getArray with _ | b
  · rfl
  rcases (doc.field "a").bind Dom.getArray with _ | a
  · rfl
  simp only [Option.bind_some]
  rcases readLevels f b with _ | bids
  · rfl
  rcases readLevels f a with _ | asks
  · rfl
  exact congrArg (true, ·) (pushFragments_eq out)

/-- **Fragmentation loses nothing, and both fragmenters agree.**  Both loops end by
themselves; the events of a diff and those of a snapshot say what the message says, in the
same pieces; and a frame that does not parse leaves the caller's vector as it was. -/
theorem fragmentation_lossless (d : DepthDiff) (tsRecvNs : Int64) (r : Reconstructor)
    (lastId : UInt64) (tsNs : Int64) :
    let diff := fragments (fun _ => d.header tsRecvNs) d.bids d.asks
    let snap : DepthSnapshot := ⟨lastId, d.bids, d.asks⟩
    let shot := (r.onSnapshot snap tsNs).2
    (∀ header rounds, d.bids.length + d.asks.length < rounds →
      fragmentLoop header rounds true d.bids d.asks = fragments header d.bids d.asks) ∧
    Faithful (d.header tsRecvNs) false d.bids d.asks diff ∧
    Faithful (Reconstructor.snapshotHeader snap tsNs true) true d.bids d.asks shot ∧
    diff.map MarketEvent.division = shot.map MarketEvent.division ∧
    ∀ parser json f out,
      match readDepthDiff parser json f with
      | none => parseDepthDiffInto parser json f tsRecvNs out = (false, out)
      | some d => parseDepthDiffInto parser json f tsRecvNs out =
          (true, out ++ fragments (fun _ => d.header tsRecvNs) d.bids d.asks) := by
  intro diff snap shot
  refine ⟨fun header rounds h => fragmentLoop_rounds h (Nat.lt_succ_self _), ?_, ?_, ?_, ?_⟩
  · have hheader : ∀ first, Header .kDepthDiff d.firstId d.finalId (false && first)
        (d.header tsRecvNs) := fun _ => ⟨rfl, rfl, rfl, rfl⟩
    exact fragments_faithful hheader (fun _ => rfl) d.bids d.asks
  · have hheader : ∀ first, Header .kSnapshot lastId lastId (true && first)
        (Reconstructor.snapshotHeader snap tsNs first) := fun _ => ⟨rfl, rfl, rfl, rfl⟩
    exact fragments_faithful hheader (fun _ => rfl) d.bids d.asks
  · exact fragmentLoop_division fun _ _ => rfl
  · intro parser json f out
    rw [parseDepthDiffInto_eq, parseDepthDiff]
    cases readDepthDiff parser json f <;> rfl

end Asmm
