import CryptoBook.HostGuard
import CryptoBook.MarketDataThread

/-! # Start-up

`engine/main.cpp`: the hosts of the market-data thread (`MakeParams`) and the smoke test that
has to pass before orders are sent (`RunSmoke`), with the signed REST client it uses
(`exchange/signed_rest_client.cpp`).  The socket and the clock are calls on the environment,
and the HMAC is a parameter.

`main.cpp` has a `HostOf` of its own, which strips the scheme and the path only.  It agrees
with the one the loader checks unless the authority has another delimiter
(`hosts_agree_iff`); then the loader accepts a URL that the smoke test refuses. -/
namespace Asmm
open TextSearch Interaction

/-! ## The signed REST client -/

inductive HttpMethod where
  | kGet
  | kPost
  | kDelete
  deriving DecidableEq, Repr

/-- `HttpResult`; status 0 if there was no response. -/
structure HttpResult where
  status : Int
  body : String
  err : String
  deriving DecidableEq, Repr

def HttpResult.ok (r : HttpResult) : Bool := r.status == 200

/-- What the client calls: the system clock, and one request over TLS. -/
inductive NetCall where
  | nowMs
  | send (method : HttpMethod) (host target apiKey : String)

/-- What it is answered. -/
abbrev NetCall.Answer : NetCall → Type
  | .nowMs => Int64
  | .send _ _ _ _ => HttpResult

abbrev NetProg := Prog NetCall NetCall.Answer

namespace Net

def nowMs : NetProg Int64 := Prog.perform NetCall.nowMs

def send (method : HttpMethod) (host target apiKey : String) : NetProg HttpResult :=
  Prog.perform (NetCall.send method host target apiKey)

end Net

structure SignedRestClient where
  apiKey : String
  apiSecret : String
  recvWindowMs : Int
  timeOffsetMs : Int64

namespace SignedRestClient

/-- `SetTimeOffsetMs`. -/
def setTimeOffsetMs (c : SignedRestClient) (offsetMs : Int64) : SignedRestClient :=
  { c with timeOffsetMs := offsetMs }

/-- The parameters of a request; the signature is over all that stands before it. -/
def requestParams (hmac : String → String → String) (c : SignedRestClient) (query : String)
    (sign : Bool) : NetProg String :=
  if sign = false then pure query
  else do
    let params := if query = "" then query else query ++ "&"
    let now ← Net.nowMs
    let params := params ++ "recvWindow=" ++ toString c.recvWindowMs ++
      "&timestamp=" ++ toString (now + c.timeOffsetMs)
    pure (params ++ "&signature=" ++ hmac c.apiSecret params)

/-- `Request`. -/
def request (hmac : String → String → String) (c : SignedRestClient) (method : HttpMethod)
    (host path query : String) (sign : Bool) : NetProg HttpResult :=
  if isTestnetOrderHost host.toList = false then
    pure ⟨0, "", "refused non-testnet order host '" ++ host ++ "'"⟩
  else do
    let params ← c.requestParams hmac query sign
    let target := if params = "" then path else path ++ "?" ++ params
    Net.send method host target c.apiKey

end SignedRestClient

/-! ## The helpers of `main.cpp` -/

namespace Main

/-- The `HostOf` of `main.cpp`. -/
def hostOf (url : List Char) : List Char :=
  let s := behind 3 (find [':', '/', '/'] url) url
  upTo (s.findIdx? (· = '/')) s

/-- `Lower`. -/
def lower (s : String) : String := String.ofList (s.toList.map Char.toLower)

/-- `FindJsonStr`. -/
def findJsonStr (body key : String) : String :=
  let pat := ("\x22" ++ key ++ "\x22:\x22").toList
  match find pat body.toList with
  | none => ""
  | some p =>
      let rest := body.toList.drop (p + pat.length)
      match rest.findIdx? (· = '\x22') with
      | none => ""
      | some stop => String.ofList (rest.take stop)

/-- `FindJsonInt`. -/
def findJsonInt (body key : String) : Int64 :=
  let pat := ("\x22" ++ key ++ "\x22:").toList
  match find pat body.toList with
  | none => -1
  | some p =>
      let rest := (body.toList.drop (p + pat.length)).dropWhile (· = ' ')
      let digits := rest.takeWhile Char.isDigit
      if digits.isEmpty then -1
      else digits.foldl (fun v c => v * 10 + Int64.ofNat (c.toNat - '0'.toNat)) 0

/-- The loop of `FractionalScale` at the `i`-th place. -/
def fractionalLoop : List Char → Nat → Nat → Nat
  | [], _, scale => scale
  | c :: cs, i, scale => fractionalLoop cs (i + 1) (if c ≠ '0' then i else scale)

/-- `FractionalScale`. -/
def fractionalScale (tick : String) : Nat :=
  match tick.toList.findIdx? (· = '.') with
  | none => 0
  | some dot => fractionalLoop (tick.toList.drop (dot + 1)) 1 0

section
variable {F : Type}

/-- `MakeParams`. -/
def makeParams (cfg : AppConfig F) : MarketDataParams where
  wsHost := String.ofList (hostOf cfg.wsMarketUrl.toList)
  wsTarget := "/ws/" ++ lower cfg.symbol ++ "@" ++ cfg.marketData.depthStream
  restHost := String.ofList (hostOf cfg.marketData.snapshotRestUrl.toList)
  snapshotTarget := "/api/v3/depth?symbol=" ++ cfg.symbol ++ "&limit=" ++
    toString cfg.marketData.depthSnapshotLimit
  filters := ⟨cfg.marketData.pxScale, cfg.marketData.qtyScale⟩
  maxSnapshotRefetch := 5

/-! ## The smoke test -/

/-- How `RunSmoke` ends, with what it prints. -/
inductive SmokeResult where
  | keysNotSet
  | notTestnetHost (host : String)
  | timeFailed (status : Int) (err : String)
  | noServerTime (body : String)
  | clockSkew (offset : Int64)
  | exchangeInfoFailed (status : Int) (body : String)
  | filterMismatch (tickScale stepScale : Nat)
  | orderTestFailed (status : Int) (body : String)
  | userDataStreamFailed (status : Int) (body : String)
  | allGreen
  deriving DecidableEq, Repr

/-- What `RunSmoke` returns. -/
def SmokeResult.exitCode : SmokeResult → Int
  | .allGreen => 0
  | _ => 1

variable (hmac : String → String → String) (cfg : AppConfig F)

/-- (4) The user-data stream is opened and closed. -/
def smokeUserData (rest : SignedRestClient) (host : String) : NetProg SmokeResult := do
  let lk ← rest.request hmac .kPost host "/api/v3/userDataStream" "" false
  let listenKey := findJsonStr lk.body "listenKey"
  if lk.ok = false ∨ listenKey = "" then pure (.userDataStreamFailed lk.status lk.body)
  else do
    let _ ← rest.request hmac .kDelete host "/api/v3/userDataStream" ("listenKey=" ++ listenKey)
      false
    pure .allGreen

/-- (3) A signed order that cannot cross; a scale whose power of ten wraps to zero is a
division by zero. -/
def smokeOrder (rest : SignedRestClient) (host : String) : NetProg SmokeResult :=
  match scaledToDecimal (10000 * 100) cfg.marketData.pxScale,
    scaledToDecimal 100 cfg.marketData.qtyScale with
  | some price, some qty => do
      let ot ← rest.request hmac .kPost host "/api/v3/order/test"
        ("symbol=" ++ cfg.symbol ++ "&side=BUY&type=LIMIT_MAKER&quantity=" ++ String.ofList qty ++
          "&price=" ++ String.ofList price) true
      if ot.ok = false then pure (.orderTestFailed ot.status ot.body)
      else smokeUserData hmac rest host
  | _, _ => .stuck

/-- (2) The filters of the exchange are those of the configuration. -/
def smokeFilters (rest : SignedRestClient) (host : String) : NetProg SmokeResult := do
  let ei ← rest.request hmac .kGet host "/api/v3/exchangeInfo" ("symbol=" ++ cfg.symbol) false
  if ei.ok = false then pure (.exchangeInfoFailed ei.status ei.body)
  else
    let tickScale := fractionalScale (findJsonStr ei.body "tickSize")
    let stepScale := fractionalScale (findJsonStr ei.body "stepSize")
    if (tickScale : Int) ≠ cfg.marketData.pxScale ∨ (stepScale : Int) ≠ cfg.marketData.qtyScale then
      pure (.filterMismatch tickScale stepScale)
    else smokeOrder hmac cfg rest host

/-- (1) The exchange is reachable and its clock near. -/
def smokeTime (rest : SignedRestClient) (host : String) : NetProg SmokeResult := do
  let localBefore ← Net.nowMs
  let t ← rest.request hmac .kGet host "/api/v3/time" "" false
  if t.ok = false then pure (.timeFailed t.status t.err)
  else
    let serverMs := findJsonInt t.body "serverTime"
    let offset := serverMs - localBefore
    if serverMs < 0 then pure (.noServerTime t.body)
    else if (offset.toInt.natAbs : Int) > cfg.orders.recvWindowMs.tdiv 2 then
      pure (.clockSkew offset)
    else smokeFilters hmac cfg (rest.setTimeOffsetMs offset) host

/-- `RunSmoke`. -/
def runSmoke : NetProg SmokeResult :=
  if cfg.apiKey = "" ∨ cfg.apiSecret = "" then pure .keysNotSet
  else
    let host := hostOf cfg.restUrl.toList
    if isTestnetOrderHost host = false then pure (.notTestnetHost (String.ofList host))
    else smokeTime hmac cfg ⟨cfg.apiKey, cfg.apiSecret, cfg.orders.recvWindowMs, 0⟩
      (String.ofList host)

end

/-! ## Whom the smoke test contacts -/

/-- The host a call contacts. -/
def hostOfCall : NetCall → List String
  | .nowMs => []
  | .send _ host _ _ => [host]

/-- The hosts of the requests of an execution. -/
def hostsSent (t : List ((c : NetCall) × c.Answer)) : List String :=
  t.flatMap fun x => hostOfCall x.1

/-- Every request goes to a host with a given property. -/
def sendsTo (P : String → Prop) : Monitor NetCall NetCall.Answer String where
  emit := fun c _ => hostOfCall c
  admits := fun _ _ => True
  inv := fun hosts => ∀ host ∈ hosts, P host

section Sends
variable {F : Type} {P : String → Prop} {host : String} {h : List String}

theorem wp_nowMs {Q : Int64 → List String → Prop} (hinv : (sendsTo P).inv h)
    (hQ : ∀ now, Q now h) : (sendsTo P).wp Q Net.nowMs h :=
  Monitor.wp_perform_silent (fun _ => rfl) hinv fun now _ => hQ now

variable (hP : isTestnetOrderHost host.toList = true → P host) (hmac : String → String → String)
include hP

/-- The client sends nothing to a host that is not on the allowlist. -/
theorem wp_request (c : SignedRestClient) (method : HttpMethod) (path query : String)
    (sign : Bool) (hinv : (sendsTo P).inv h) :
    (sendsTo P).wp (fun _ _ => True) (c.request hmac method host path query sign) h := by
  rw [SignedRestClient.request]
  by_cases hhost : isTestnetOrderHost host.toList = false
  · rw [if_pos hhost]
    exact Monitor.wp_pure hinv trivial
  rw [if_neg hhost]
  have hparams : (sendsTo P).wp (fun _ _ => True) (c.requestParams hmac query sign) h := by
    rw [SignedRestClient.requestParams]
    split
    · exact Monitor.wp_pure hinv trivial
    · exact Monitor.wp_bind (wp_nowMs hinv fun now => Monitor.wp_pure hinv trivial)
  refine Monitor.wp_seq hparams fun params h hinv => ?_
  change (sendsTo P).wp _ (Prog.perform (NetCall.send method host _ c.apiKey)) h
  refine Monitor.wp_perform hinv fun _ _ => ⟨?_, trivial⟩
  exact List.forall_mem_append.mpr
    ⟨hinv, List.forall_mem_singleton.mpr (hP (Bool.eq_true_of_not_eq_false hhost))⟩

theorem wp_smokeUserData (rest : SignedRestClient) (hinv : (sendsTo P).inv h) :
    (sendsTo P).wp (fun _ _ => True) (smokeUserData hmac rest host) h := by
  refine Monitor.wp_seq (wp_request hP hmac rest _ _ _ _ hinv) fun lk h hinv => ?_
  dsimp only
  split
  · exact Monitor.wp_pure hinv trivial
  · exact Monitor.wp_seq (wp_request hP hmac rest _ _ _ _ hinv) fun _ h hinv =>
      Monitor.wp_pure hinv trivial

variable (cfg : AppConfig F)

theorem wp_smokeOrder (rest : SignedRestClient) (hinv : (sendsTo P).inv h) :
    (sendsTo P).wp (fun _ _ => True) (smokeOrder hmac cfg rest host) h := by
  rw [smokeOrder]
  split
  · refine Monitor.wp_seq (wp_request hP hmac rest _ _ _ _ hinv) fun ot h hinv => ?_
    split
    · exact Monitor.wp_pure hinv trivial
    · exact wp_smokeUserData hP hmac rest hinv
  · exact hinv

theorem wp_smokeFilters (rest : SignedRestClient) (hinv : (sendsTo P).inv h) :
    (sendsTo P).wp (fun _ _ => True) (smokeFilters hmac cfg rest host) h := by
  refine Monitor.wp_seq (wp_request hP hmac rest _ _ _ _ hinv) fun ei h hinv => ?_
  dsimp only
  split
  · exact Monitor.wp_pure hinv trivial
  split
  · exact Monitor.wp_pure hinv trivial
  · exact wp_smokeOrder hP hmac cfg rest hinv

theorem wp_smokeTime (rest : SignedRestClient) (hinv : (sendsTo P).inv h) :
    (sendsTo P).wp (fun _ _ => True) (smokeTime hmac cfg rest host) h := by
  refine Monitor.wp_bind (wp_nowMs hinv fun localBefore => ?_)
  refine Monitor.wp_seq (wp_request hP hmac rest _ _ _ _ hinv) fun t h hinv => ?_
  dsimp only
  split
  · exact Monitor.wp_pure hinv trivial
  split
  · exact Monitor.wp_pure hinv trivial
  split
  · exact Monitor.wp_pure hinv trivial
  · exact wp_smokeFilters hP hmac cfg _ hinv

end Sends

section Runs
variable {F : Type} (hmac : String → String → String) (cfg : AppConfig F)

theorem wp_runSmoke {P : String → Prop}
    (hP : isTestnetOrderHost (hostOf cfg.restUrl.toList) = true →
      P (String.ofList (hostOf cfg.restUrl.toList))) :
    (sendsTo P).wp (fun _ _ => True) (runSmoke hmac cfg) [] := by
  have hinv : (sendsTo P).inv [] := nofun
  rw [runSmoke]
  split
  · exact Monitor.wp_pure hinv trivial
  dsimp only
  split
  · exact Monitor.wp_pure hinv trivial
  · exact wp_smokeTime (by rwa [String.toList_ofList]) hmac cfg _ hinv

/-- **The smoke test contacts one host only**, the one `main.cpp` finds in the order URL, and
only if that is a testnet host. -/
theorem runSmoke_hosts (answers : Nat → (c : NetCall) → c.Answer) (n : Nat) :
    ∀ host ∈ hostsSent ((runSmoke hmac cfg).exec answers n),
      host.toList = hostOf cfg.restUrl.toList ∧ isTestnetOrderHost host.toList = true := by
  let P := fun host : String =>
    host.toList = hostOf cfg.restUrl.toList ∧ isTestnetOrderHost host.toList = true
  have hP : isTestnetOrderHost (hostOf cfg.restUrl.toList) = true →
      P (String.ofList (hostOf cfg.restUrl.toList)) := fun h => by
    simpa only [P, String.toList_ofList, true_and] using h
  exact Monitor.wp_exec (wp_runSmoke hmac cfg hP) answers (fun _ _ => trivial) n

/-- With keys, the host decides between a refusal and a first call. -/
theorem runSmoke_eq (hkey : cfg.apiKey ≠ "") (hsecret : cfg.apiSecret ≠ "") :
    runSmoke hmac cfg =
      if isTestnetOrderHost (hostOf cfg.restUrl.toList) = false then
        pure (.notTestnetHost (String.ofList (hostOf cfg.restUrl.toList)))
      else smokeTime hmac cfg ⟨cfg.apiKey, cfg.apiSecret, cfg.orders.recvWindowMs, 0⟩
        (String.ofList (hostOf cfg.restUrl.toList)) := by
  rw [runSmoke, if_neg (not_or.mpr ⟨hkey, hsecret⟩)]

end Runs

/-! ## The two `HostOf` -/

section Agreement
variable {url : List Char}

theorem hostOf_eq_iff {host : List Char} :
    hostOf url = host ↔ ∃ rest, BehindScheme url rest ∧ '/' ∉ host ∧
      ∃ suffix, rest = host ++ suffix ∧ ∀ c ∈ suffix.head?, c = '/' := by
  simp only [hostOf, ← behind_scheme_iff, exists_eq_left', upTo_findIdx?_eq_iff,
    decide_eq_false_iff_not, decide_eq_true_iff]
  refine and_congr_left' ⟨fun h hc => h _ hc rfl, fun h c hc heq => h (heq ▸ hc)⟩

/-- Between the scheme and the path stands a host and nothing else. -/
def PlainAuthority (url : List Char) : Prop :=
  ∃ rest host suffix, BehindScheme url rest ∧ rest = host ++ suffix ∧
    (∀ c ∈ host, c ∉ ['/', '?', '#', '@', ':']) ∧ ∀ c ∈ suffix.head?, c = '/'

/-- The hosts of the allowlist have no delimiters. -/
theorem plain_of_isTestnetOrderHost {host : List Char} (h : isTestnetOrderHost host = true) :
    ∀ c ∈ host, c ∉ ['/', '?', '#', '@', ':'] := by
  simp only [isTestnetOrderHost, Bool.or_eq_true, beq_iff_eq] at h
  rcases h with (((rfl | rfl) | rfl) | rfl) | rfl <;> exact plain_of_all (by decide)

/-- On a plain authority both find the same host. -/
theorem PlainAuthority.hostOf_eq (h : PlainAuthority url) : hostOf url = Asmm.hostOf url := by
  obtain ⟨rest, host, suffix, hrest, rfl, hhost, hsuffix⟩ := h
  have hmain : hostOf url = host :=
    hostOf_eq_iff.mpr ⟨_, hrest, fun h => hhost _ h List.mem_cons_self, suffix, rfl, hsuffix⟩
  have hguard : Asmm.hostOf url = host := by
    refine (Asmm.hostOf_eq_iff hhost).mpr ⟨_, hrest, none, none, suffix, ?_, ?_, ?_, ?_⟩
    · simp [closedBy, openedBy]
    · rintro c ⟨⟩
    · rintro c ⟨⟩
    · intro c hc
      rw [hsuffix c hc]
      exact List.mem_cons_self
  rw [hmain, hguard]

/-- A host without delimiters that `main.cpp` finds is a plain authority. -/
theorem plainAuthority_of_hostOf {host : List Char} (h : hostOf url = host)
    (hhost : ∀ c ∈ host, c ∉ ['/', '?', '#', '@', ':']) : PlainAuthority url := by
  obtain ⟨rest, hrest, -, suffix, hsplit, hsuffix⟩ := hostOf_eq_iff.mp h
  exact ⟨rest, host, suffix, hrest, hsplit, hhost, hsuffix⟩

variable {F : Type}

/-- **When the two `HostOf` agree.**  Take an order URL that the loader accepts.  `main.cpp`
finds the same host, and the smoke test neither refuses it nor contacts any other, exactly if
nothing but a host stands between the scheme and the path. -/
theorem hosts_agree_iff (url : List Char)
    (hguard : isTestnetOrderHost (Asmm.hostOf url) = true) :
    (hostOf url = Asmm.hostOf url ∧
      ∀ (hmac : String → String → String) (cfg : AppConfig F), cfg.restUrl.toList = url →
        cfg.apiKey ≠ "" → cfg.apiSecret ≠ "" →
        (∀ host, runSmoke hmac cfg ≠ pure (.notTestnetHost host)) ∧
        ∀ (answers : Nat → (c : NetCall) → c.Answer) (n : Nat),
          ∀ host ∈ hostsSent ((runSmoke hmac cfg).exec answers n),
            host.toList = Asmm.hostOf url) ↔
      PlainAuthority url := by
  constructor
  · rintro ⟨hagree, -⟩
    exact plainAuthority_of_hostOf hagree (plain_of_isTestnetOrderHost hguard)
  · intro hplain
    have hagree := hplain.hostOf_eq
    refine ⟨hagree, ?_⟩
    rintro hmac cfg rfl hkey hsecret
    constructor
    · intro host
      rw [runSmoke_eq hmac cfg hkey hsecret, hagree, if_neg (ne_true_of_eq_false · hguard)]
      nofun
    · intro answers n host hhost
      rw [← hagree]
      exact (runSmoke_hosts hmac cfg answers n host hhost).1

/-- The smoke test accepts the URL of the shipped configuration, and contacts its host. -/
theorem hosts_agree_shipped :
    isTestnetOrderHost (Asmm.hostOf "https://testnet.binance.vision".toList) = true ∧
      hostOf "https://testnet.binance.vision".toList = "testnet.binance.vision".toList := by
  have hhost : Asmm.hostOf "https://testnet.binance.vision".toList =
      "testnet.binance.vision".toList := by decide +kernel
  have hguard : isTestnetOrderHost (Asmm.hostOf "https://testnet.binance.vision".toList) =
      true := by
    rw [hhost]
    decide
  have hplain : PlainAuthority "https://testnet.binance.vision".toList := by
    refine plainAuthority_of_hostOf rfl (plain_of_isTestnetOrderHost ?_)
    decide +kernel
  refine ⟨hguard, ?_⟩
  rw [((hosts_agree_iff (F := Strategy.Whole) _ hguard).mpr hplain).1, hhost]

/-- With anything else between the scheme and the path the smoke test refuses, whatever the
loader says. -/
theorem runSmoke_refuses (hmac : String → String → String) (cfg : AppConfig F)
    (hplain : ¬ PlainAuthority cfg.restUrl.toList) (hkey : cfg.apiKey ≠ "")
    (hsecret : cfg.apiSecret ≠ "") :
    runSmoke hmac cfg =
      pure (.notTestnetHost (String.ofList (hostOf cfg.restUrl.toList))) := by
  have hrefused : isTestnetOrderHost (hostOf cfg.restUrl.toList) = false := by
    rw [← Bool.not_eq_true]
    exact fun h => hplain (plainAuthority_of_hostOf rfl (plain_of_isTestnetOrderHost h))
  rw [runSmoke_eq hmac cfg hkey hsecret, if_pos hrefused]

/-- The environment with both keys. -/
def keys : Env := fun k =>
  if k = "BINANCE_TESTNET_API_KEY" ∨ k = "BINANCE_TESTNET_API_SECRET" then some "key" else none

/-- **A port is accepted by the loader and refused by the smoke test.** -/
theorem hosts_disagree_on_port :
    ∃ cfg, loadConfig "port.toml" (.ok (tableOf "BTCUSDT" "https://testnet.binance.vision:443"))
        ".env" none keys = .ok cfg ∧
      Asmm.hostOf cfg.restUrl.toList = "testnet.binance.vision".toList ∧
      hostOf cfg.restUrl.toList = "testnet.binance.vision:443".toList ∧
      ∀ hmac, runSmoke hmac cfg = pure (.notTestnetHost "testnet.binance.vision:443") := by
  refine ⟨_, loadConfig_defaults _ ?_ ?_ rfl rfl, ?_, ?_, fun hmac => ?_⟩
  · decide
  · decide +kernel
  · decide +kernel
  · decide +kernel
  · rw [runSmoke_eq hmac _ (by decide) (by decide), if_pos (by decide +kernel)]
    rfl

/-- **Market data never comes from `api.binance.com`** under a configuration that was
loaded. -/
theorem makeParams_mirror {cfg : AppConfig F} (hvalid : cfg.Valid) :
    ¬ "api.binance.com".toList <:+: (makeParams cfg).restHost.toList := by
  have hhost : (makeParams cfg).restHost.toList = hostOf cfg.marketData.snapshotRestUrl.toList :=
    String.toList_ofList
  rw [hhost]
  exact fun h => hvalid.mirror (h.trans
    ((upTo_isPrefix _ _).isInfix.trans (behind_isSuffix 3 _ _).isInfix))

end Agreement
end Main

end Asmm
