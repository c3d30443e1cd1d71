import CryptoBook.Signing
import CryptoBook.Strategy

/-! # The configuration

`engine/config.cpp`: the TOML document with its defaults, the checks, and the secrets from
the environment, into which a `.env` file is read first.

The TOML parser is a parameter.  It gives an error text, or the accessor
`tbl[section][key].value<T>()` for each type the loader asks for (`TomlTable`).  The `.env`
file is the list of its lines, or missing.

The loader stops at the first failing check.  What it lets through is exactly what passes all
of them (`loadConfig_eq_ok_iff`). -/
namespace Asmm
open TextSearch

/-! ## Errors -/

/-- `if (c) throw std::runtime_error(message);`. -/
def throwIf (c : Prop) [Decidable c] (message : String) : Except String Unit :=
  if c then .error message else .ok ()

theorem throwIf_bind_eq_ok {α : Type} {c : Prop} [Decidable c] {message : String}
    {next : Unit → Except String α} {r : α} :
    (throwIf c message >>= next) = .ok r ↔ ¬ c ∧ next () = .ok r := by
  rw [throwIf]
  by_cases hc : c
  · rw [if_pos hc]
    exact iff_of_false nofun fun h => h.1 hc
  · rw [if_neg hc]
    exact (and_iff_right hc).symm

/-! ## The environment -/

/-- The process environment. -/
abbrev Env : Type := String → Option String

/-- `setenv(key, value, 0)`: a variable that is set stays. -/
def Env.setenv (env : Env) (key value : String) : Env :=
  fun k => if k = key ∧ env k = none then some value else env k

/-- `GetEnvOr`. -/
def getEnvOr (env : Env) (key fallback : String) : String := (env key).getD fallback

/-- `Trim`. -/
def trim (s : List Char) : List Char :=
  let blank := fun c => [' ', '\t', '\r', '\n'].contains c
  ((s.dropWhile blank).reverse.dropWhile blank).reverse

/-- The loop of `LoadDotenv` behind so many lines. -/
def loadDotenvLoop (envPath : String) : Nat → List String → Env → Except String Env
  | _, [], env => .ok env
  | lineno, line :: lines, env =>
      let lineno := lineno + 1
      let trimmed := trim line.toList
      if trimmed.isEmpty ∨ trimmed.head? = some '#' then loadDotenvLoop envPath lineno lines env
      else
        match find ['='] trimmed with
        | none => .error (envPath ++ ":" ++ toString lineno ++
            ": malformed line (expected KEY=VALUE)")
        | some eq =>
            let key := trim (trimmed.take eq)
            let val := trim (trimmed.drop (eq + 1))
            if key.isEmpty then .error (envPath ++ ":" ++ toString lineno ++ ": empty key")
            else loadDotenvLoop envPath lineno lines
              (env.setenv (String.ofList key) (String.ofList val))

/-- `LoadDotenv`: whether there is a file, and the environment afterwards. -/
def loadDotenv (envPath : String) (file : Option (List String)) (env : Env) :
    Except String (Bool × Env) :=
  match file with
  | none => .ok (false, env)
  | some lines => do
      let env ← loadDotenvLoop envPath 0 lines env
      return (true, env)

theorem Env.setenv_of_some {env : Env} {k v : String} (h : env k = some v) (key value : String) :
    env.setenv key value k = some v := by
  rw [setenv, if_neg (by simp [h]), h]

theorem loadDotenvLoop_keeps {envPath : String} {lineno : Nat} {lines : List String}
    {env env' : Env} (h : loadDotenvLoop envPath lineno lines env = .ok env') {k v : String}
    (hk : env k = some v) : env' k = some v := by
  induction lines generalizing lineno env with
  | nil =>
    cases h
    exact hk
  | cons line lines ih =>
    rw [loadDotenvLoop] at h
    dsimp only at h
    split at h
    · exact ih h hk
    split at h
    · cases h
    split at h
    · cases h
    · exact ih h (Env.setenv_of_some hk _ _)

/-- **Variables of the real environment take precedence over the file.** -/
theorem loadDotenv_keeps {envPath : String} {file : Option (List String)} {env : Env}
    {r : Bool × Env} (h : loadDotenv envPath file env = .ok r) {k v : String}
    (hk : env k = some v) : r.2 k = some v := by
  cases file with
  | none =>
    cases h
    exact hk
  | some lines =>
    rw [loadDotenv] at h
    rcases hloop : loadDotenvLoop envPath 0 lines env with e | env'
    · rw [hloop] at h
      cases h
    · rw [hloop] at h
      cases h
      exact loadDotenvLoop_keeps hloop hk

/-! ## The document -/

/-- A parsed document: `tbl[section][key].value<T>()`.  What does not fit the type asked for
is not there. -/
structure TomlTable (F : Type) where
  str : String → String → Option String
  int : String → String → Option Int
  i64 : String → String → Option Int
  double : String → String → Option F
  bool : String → String → Option Bool

structure MarketDataConfig (F : Type) where
  snapshotRestUrl : String
  depthStream : String
  depthSnapshotLimit : Int
  pxScale : Int
  qtyScale : Int
  staleThresholdMs : Int
  backoffInitialMs : Int
  backoffMaxMs : Int
  backoffMultiplier : F
  readTimeoutS : Int
  crosscheckIntervalS : Int
  crosscheckDepthLimit : Int
  crosscheckLevels : Int

structure OrderConfig where
  enabled : Bool
  recvWindowMs : Int
  maxOrderRatePer10s : Int
  maxRequestWeightPerMin : Int
  userDataWsUrl : String
  reconcileIntervalS : Int
  flattenOnKill : Bool
  orderBackoffInitialMs : Int
  orderBackoffMaxMs : Int
  clientIdPrefix : String
  cancelAllOnKillTimeoutMs : Int
  deriving DecidableEq, Repr

structure AppConfig (F : Type) where
  symbol : String
  restUrl : String
  wsMarketUrl : String
  logDir : String
  marketData : MarketDataConfig F
  strategyEnabled : Bool
  strategy : StrategyParams F
  orders : OrderConfig
  apiKey : String
  apiSecret : String

def OrderConfig.defaults : OrderConfig where
  enabled := false
  recvWindowMs := 5000
  maxOrderRatePer10s := 40
  maxRequestWeightPerMin := 1000
  userDataWsUrl := "wss://testnet.binance.vision/ws"
  reconcileIntervalS := 60
  flattenOnKill := false
  orderBackoffInitialMs := 500
  orderBackoffMaxMs := 30000
  clientIdPrefix := "asmm"
  cancelAllOnKillTimeoutMs := 3000

section
variable {F : Type} [Double F]

def MarketDataConfig.defaults : MarketDataConfig F where
  snapshotRestUrl := "https://data-api.binance.vision"
  depthStream := "depth@100ms"
  depthSnapshotLimit := 5000
  pxScale := 2
  qtyScale := 5
  staleThresholdMs := 500
  backoffInitialMs := 500
  backoffMaxMs := 30000
  backoffMultiplier := Double.ofInt 2
  readTimeoutS := 10
  crosscheckIntervalS := 60
  crosscheckDepthLimit := 100
  crosscheckLevels := 20

/-- The defaults of `StrategyParams`.  A literal with places is a quotient of whole ones,
which rounds to the same `double`. -/
def StrategyParams.defaults : StrategyParams F where
  gamma := Double.ofInt 1 / Double.ofInt 10
  kappa := Double.ofInt 3 / Double.ofInt 2
  tauDays := Double.ofInt 1
  sigmaHalflifeS := Double.ofInt 60
  sigmaMinSamples := 30
  sigmaSpikeThreshold := Double.ofInt 5 / Double.ofInt 10000
  hysteresisTicks := 2
  qMaxLots := 100
  quoteSizeLots := 10
  makerFeeBps := Double.ofInt 10
  minNotionalUsdt := Double.ofInt 5
  pxScale := 2
  qtyScale := 5

namespace TomlTable
variable (tbl : TomlTable F)

/-- The section `[market_data]`. -/
def marketData : MarketDataConfig F :=
  let md : MarketDataConfig F := .defaults
  let str := fun key fallback => (tbl.str "market_data" key).getD fallback
  let int := fun key fallback => (tbl.int "market_data" key).getD fallback
  let i64 := fun key fallback => (tbl.i64 "market_data" key).getD fallback
  { snapshotRestUrl := str "snapshot_rest_url" md.snapshotRestUrl
    depthStream := str "depth_stream" md.depthStream
    depthSnapshotLimit := int "depth_snapshot_limit" md.depthSnapshotLimit
    pxScale := int "px_scale" md.pxScale
    qtyScale := int "qty_scale" md.qtyScale
    staleThresholdMs := i64 "stale_threshold_ms" md.staleThresholdMs
    backoffInitialMs := i64 "backoff_initial_ms" md.backoffInitialMs
    backoffMaxMs := i64 "backoff_max_ms" md.backoffMaxMs
    backoffMultiplier :=
      (tbl.double "market_data" "backoff_multiplier").getD md.backoffMultiplier
    readTimeoutS := int "read_timeout_s" md.readTimeoutS
    crosscheckIntervalS := int "crosscheck_interval_s" md.crosscheckIntervalS
    crosscheckDepthLimit := int "crosscheck_depth_limit" md.crosscheckDepthLimit
    crosscheckLevels := int "crosscheck_levels" md.crosscheckLevels }

/-- The section `[strategy]`; the scales come from `[market_data]`. -/
def strategy : StrategyParams F :=
  let sp : StrategyParams F := .defaults
  let i64 := fun key fallback => (tbl.i64 "strategy" key).getD fallback
  let double := fun key fallback => (tbl.double "strategy" key).getD fallback
  { gamma := double "gamma" sp.gamma
    kappa := double "kappa" sp.kappa
    tauDays := double "tau_days" sp.tauDays
    sigmaHalflifeS := double "sigma_halflife_s" sp.sigmaHalflifeS
    sigmaMinSamples := (tbl.int "strategy" "sigma_min_samples").getD sp.sigmaMinSamples
    sigmaSpikeThreshold := double "sigma_spike_threshold" sp.sigmaSpikeThreshold
    hysteresisTicks := i64 "hysteresis_ticks" sp.hysteresisTicks
    qMaxLots := i64 "q_max_lots" sp.qMaxLots
    quoteSizeLots := i64 "quote_size_lots" sp.quoteSizeLots
    makerFeeBps := double "maker_fee_bps" sp.makerFeeBps
    minNotionalUsdt := double "min_notional_usdt" sp.minNotionalUsdt
    pxScale := tbl.marketData.pxScale
    qtyScale := tbl.marketData.qtyScale }

omit [Double F] in
/-- The section `[orders]`. -/
def orders : OrderConfig :=
  let oc := OrderConfig.defaults
  let str := fun key fallback => (tbl.str "orders" key).getD fallback
  let int := fun key fallback => (tbl.int "orders" key).getD fallback
  let i64 := fun key fallback => (tbl.i64 "orders" key).getD fallback
  let bool := fun key fallback => (tbl.bool "orders" key).getD fallback
  { enabled := bool "enabled" oc.enabled
    recvWindowMs := int "recv_window_ms" oc.recvWindowMs
    maxOrderRatePer10s := int "max_order_rate_per_10s" oc.maxOrderRatePer10s
    maxRequestWeightPerMin := int "max_request_weight_per_min" oc.maxRequestWeightPerMin
    userDataWsUrl := str "user_data_ws_url" oc.userDataWsUrl
    reconcileIntervalS := int "reconcile_interval_s" oc.reconcileIntervalS
    flattenOnKill := bool "flatten_on_kill" oc.flattenOnKill
    orderBackoffInitialMs := i64 "order_backoff_initial_ms" oc.orderBackoffInitialMs
    orderBackoffMaxMs := i64 "order_backoff_max_ms" oc.orderBackoffMaxMs
    clientIdPrefix := str "client_id_prefix" oc.clientIdPrefix
    cancelAllOnKillTimeoutMs :=
      int "cancel_all_on_kill_timeout_ms" oc.cancelAllOnKillTimeoutMs }

/-- The whole configuration, with the secrets from the environment. -/
def appConfig (env : Env) : AppConfig F where
  symbol := (tbl.str "exchange" "symbol").getD ""
  restUrl := (tbl.str "exchange" "rest_url").getD ""
  wsMarketUrl := (tbl.str "exchange" "ws_market_url").getD ""
  logDir := (tbl.str "engine" "log_dir").getD "logs"
  marketData := tbl.marketData
  strategyEnabled := (tbl.bool "strategy" "enabled").getD false
  strategy := tbl.strategy
  orders := tbl.orders
  apiKey := getEnvOr env "BINANCE_TESTNET_API_KEY" ""
  apiSecret := getEnvOr env "BINANCE_TESTNET_API_SECRET" ""

end TomlTable

/-! ## The loader -/

/-- The host of a URL, as the loader compares and prints it. -/
def hostText (url : String) : String := String.ofList (hostOf url.toList)

/-- `LoadConfig`. -/
def loadConfig (tomlPath : String) (doc : Except String (TomlTable F)) (envPath : String)
    (dotenv : Option (List String)) (env : Env) : Except String (AppConfig F) := do
  let tbl ← doc.mapError fun e => "failed to parse config '" ++ tomlPath ++ "': " ++ e
  let fail := fun text => "config '" ++ tomlPath ++ "': " ++ text
  let symbol := (tbl.str "exchange" "symbol").getD ""
  let restUrl := (tbl.str "exchange" "rest_url").getD ""
  throwIf (symbol = "") (fail "[exchange].symbol is required")
  throwIf (restUrl = "") (fail "[exchange].rest_url is required")
  throwIf (isTestnetOrderHost (hostOf restUrl.toList) = false)
    (fail ("rest_url host must be a Binance testnet order host (got '" ++ hostText restUrl ++
      "' from '" ++ restUrl ++ "')"))
  let md := tbl.marketData
  throwIf (find "api.binance.com".toList md.snapshotRestUrl.toList ≠ none)
    (fail ("market_data.snapshot_rest_url must be the data.binance.vision " ++
      "mirror, not api.binance.com (HTTP 451 from US networks)"))
  throwIf (md.pxScale < 0 ∨ md.qtyScale < 0) (fail "market_data px/qty scale must be >= 0")
  let oc := tbl.orders
  throwIf (isTestnetOrderHost (hostOf oc.userDataWsUrl.toList) = false)
    (fail ("orders.user_data_ws_url host must be a Binance testnet host (got '" ++
      hostText oc.userDataWsUrl ++ "')"))
  throwIf (oc.recvWindowMs ≤ 0 ∨ oc.recvWindowMs > 60000)
    (fail ("orders.recv_window_ms must be in (0, 60000] (got " ++ toString oc.recvWindowMs ++ ")"))
  let (_, env) ← loadDotenv envPath dotenv env
  return tbl.appConfig env

/-- What the checks of the loader ask of a configuration. -/
structure AppConfig.Valid {F : Type} (cfg : AppConfig F) : Prop where
  symbol : cfg.symbol ≠ ""
  rest_url : cfg.restUrl ≠ ""
  rest_host : isTestnetOrderHost (hostOf cfg.restUrl.toList) = true
  mirror : ¬ "api.binance.com".toList <:+: cfg.marketData.snapshotRestUrl.toList
  px_scale : 0 ≤ cfg.marketData.pxScale
  qty_scale : 0 ≤ cfg.marketData.qtyScale
  user_data_host : isTestnetOrderHost (hostOf cfg.orders.userDataWsUrl.toList) = true
  recv_window : 0 < cfg.orders.recvWindowMs ∧ cfg.orders.recvWindowMs ≤ 60000

section Loader
variable {tomlPath envPath : String} {doc : Except String (TomlTable F)}
  {dotenv : Option (List String)} {env : Env} {cfg : AppConfig F}

/-- **What the loader accepts**: the configuration of a document that parses, if it passes
every check and the `.env` file can be read. -/
theorem loadConfig_eq_ok_iff :
    loadConfig tomlPath doc envPath dotenv env = .ok cfg ↔
      ∃ tbl r, doc = .ok tbl ∧ loadDotenv envPath dotenv env = .ok r ∧
        cfg = tbl.appConfig r.2 ∧ cfg.Valid := by
  rcases doc with e | tbl
  · refine iff_of_false (by rintro ⟨⟩) ?_
    rintro ⟨_, _, ⟨⟩, -⟩
  rw [loadConfig]
  change (throwIf _ _ >>= _) = _ ↔ _
  simp only [throwIf_bind_eq_ok]
  rcases loadDotenv envPath dotenv env with e | r
  · refine iff_of_false ?_ ?_
    · rintro ⟨-, -, -, -, -, -, -, ⟨⟩⟩
    · rintro ⟨_, _, -, ⟨⟩, -⟩
  constructor
  · rintro ⟨hsymbol, hurl, hhost, hmirror, hscale, huser, hwindow, hcfg⟩
    cases hcfg
    exact ⟨tbl, r, rfl, rfl, rfl,
      { symbol := hsymbol
        rest_url := hurl
        rest_host := Bool.eq_true_of_not_eq_false hhost
        mirror := find_eq_none_iff.mp (not_not.mp hmirror)
        px_scale := Int.not_lt.mp fun h => hscale (.inl h)
        qty_scale := Int.not_lt.mp fun h => hscale (.inr h)
        user_data_host := Bool.eq_true_of_not_eq_false huser
        recv_window := ⟨Int.not_le.mp fun h => hwindow (.inl h),
          Int.not_lt.mp fun h => hwindow (.inr h)⟩ }⟩
  · rintro ⟨_, _, ⟨⟩, ⟨⟩, rfl, hvalid⟩
    exact ⟨hvalid.symbol, hvalid.rest_url, ne_false_of_eq_true hvalid.rest_host,
      not_not.mpr (find_eq_none_iff.mpr hvalid.mirror),
      fun h => h.elim (Int.not_lt.mpr hvalid.px_scale) (Int.not_lt.mpr hvalid.qty_scale),
      ne_false_of_eq_true hvalid.user_data_host,
      fun h => h.elim (Int.not_le.mpr hvalid.recv_window.1) (Int.not_lt.mpr hvalid.recv_window.2),
      rfl⟩

/-- A document is accepted that names the symbol, a testnet host and scales that are not
negative, and leaves the other checked entries to their defaults. -/
theorem loadConfig_of_scales (tbl : TomlTable F)
    (hsymbol : ((tbl.str "exchange" "symbol").getD "") ≠ "")
    (hhost : isTestnetOrderHost (hostOf ((tbl.str "exchange" "rest_url").getD "").toList) = true)
    (hsnapshot : tbl.marketData.snapshotRestUrl = (.defaults : MarketDataConfig F).snapshotRestUrl)
    (hpx : 0 ≤ tbl.marketData.pxScale) (hqty : 0 ≤ tbl.marketData.qtyScale)
    (horders : tbl.orders = .defaults) :
    loadConfig tomlPath (.ok tbl) envPath none env = .ok (tbl.appConfig env) := by
  have hurl : (tbl.str "exchange" "rest_url").getD "" ≠ "" := by
    intro h
    rw [h] at hhost
    exact absurd hhost (by decide)
  have hmirror : ¬ "api.binance.com".toList <:+: tbl.marketData.snapshotRestUrl.toList := by
    rw [hsnapshot, ← find_eq_none_iff]
    change find "api.binance.com".toList "https://data-api.binance.vision".toList = none
    decide +kernel
  have huser : isTestnetOrderHost (hostOf tbl.orders.userDataWsUrl.toList) = true := by
    rw [horders]
    decide +kernel
  have hwindow : 0 < tbl.orders.recvWindowMs ∧ tbl.orders.recvWindowMs ≤ 60000 := by
    rw [horders]
    decide
  exact loadConfig_eq_ok_iff.mpr ⟨tbl, (false, env), rfl, rfl, rfl,
    ⟨hsymbol, hurl, hhost, hmirror, hpx, hqty, huser, hwindow⟩⟩

/-- Every default passes its own check: a document that only names the symbol and a testnet
host is accepted. -/
theorem loadConfig_defaults (tbl : TomlTable F)
    (hsymbol : ((tbl.str "exchange" "symbol").getD "") ≠ "")
    (hhost : isTestnetOrderHost (hostOf ((tbl.str "exchange" "rest_url").getD "").toList) = true)
    (hmd : tbl.marketData = .defaults) (horders : tbl.orders = .defaults) :
    loadConfig tomlPath (.ok tbl) envPath none env = .ok (tbl.appConfig env) := by
  have hscale : 0 ≤ tbl.marketData.pxScale ∧ 0 ≤ tbl.marketData.qtyScale := by
    rw [hmd]
    exact ⟨(by decide : (0 : Int) ≤ 2), (by decide : (0 : Int) ≤ 5)⟩
  exact loadConfig_of_scales tbl hsymbol hhost (by rw [hmd]) hscale.1 hscale.2 horders

end Loader
end
end Asmm
