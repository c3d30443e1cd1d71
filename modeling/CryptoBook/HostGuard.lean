import CryptoBook.Config

/-! # The testnet guard

`LoadConfig` only accepts an order URL and a user-data URL whose host, as `HostOf` finds it,
is on the allowlist.  Whether that keeps other hosts out depends on `HostOf`: a URL is a
`Url` by its parts, and the question is when the host found is the one that stands there.

It is if a scheme is written.  Without a scheme, a `://` further on is taken for the end of
one, and the text behind it for the rest of the URL: the host of
`evil.com?next=https://testnet.binance.vision` is found to be a testnet host
(`host_guard_bypassed`). -/
namespace Asmm
open TextSearch

/-- `[scheme://][userinfo@]host[:port][suffix]`. -/
structure Url where
  scheme : Option (List Char)
  user : Option (List Char)
  host : List Char
  port : Option (List Char)
  suffix : List Char
  scheme_plain : ∀ c ∈ scheme.getD [], c ∉ [':', '/']
  user_plain : ∀ c ∈ user.getD [], c ∉ ['/', '?', '#']
  host_ne_nil : host ≠ []
  host_plain : ∀ c ∈ host, c ∉ ['/', '?', '#', '@', ':']
  port_digits : ∀ c ∈ port.getD [], c.isDigit = true
  suffix_head : ∀ c ∈ suffix.head?, c ∈ ['/', '?', '#']

/-- `rest` stands behind the first `://` of a text. -/
def BehindMark (text rest : List Char) : Prop :=
  ∃ pre, text = pre ++ ([':', '/', '/'] ++ rest) ∧ FirstAt [':', '/', '/'] pre

/-- `rest` stands behind the first `://`, or is the whole text if there is none. -/
def BehindScheme (text rest : List Char) : Prop :=
  ¬ [':', '/', '/'] <:+: text ∧ text = rest ∨ BehindMark text rest

theorem behind_scheme_iff {url rest : List Char} :
    behind 3 (find [':', '/', '/'] url) url = rest ↔ BehindScheme url rest :=
  behind_find_eq_iff (List.cons_ne_nil _ _)

theorem hostOf_eq_iff {host url : List Char}
    (hhost : ∀ c ∈ host, c ∉ ['/', '?', '#', '@', ':']) :
    hostOf url = host ↔ ∃ rest, BehindScheme url rest ∧ HasHost host rest := by
  simp only [hostOf, authorityHost_eq_iff hhost, ← behind_scheme_iff, exists_eq_left']

namespace Url
variable (u : Url)

/-- What stands behind the scheme. -/
def rest : List Char := closedBy '@' u.user ++ (u.host ++ openedBy ':' u.port) ++ u.suffix

def text : List Char :=
  match u.scheme with
  | none => u.rest
  | some scheme => scheme ++ ([':', '/', '/'] ++ u.rest)

theorem rest_hasHost : HasHost u.host u.rest := by
  refine ⟨u.user, u.port, u.suffix, rfl, u.user_plain, fun c hc => ?_, u.suffix_head⟩
  have hdigit := u.port_digits c hc
  rintro hmem
  simp only [List.mem_cons, List.not_mem_nil, or_false] at hmem
  rcases hmem with rfl | rfl | rfl | rfl | rfl <;> cases hdigit

/-- **The host is found**, unless no scheme is written and what stands behind some `://` has
another host. -/
theorem hostOf_text_iff :
    hostOf u.text = u.host ↔
      u.scheme ≠ none ∨ ¬ [':', '/', '/'] <:+: u.text ∨
        ∃ rest, BehindMark u.text rest ∧ HasHost u.host rest := by
  rw [hostOf_eq_iff u.host_plain]
  rcases hscheme : u.scheme with - | scheme
  · have htext : u.text = u.rest := by rw [text, hscheme]
    constructor
    · rintro ⟨rest, ⟨hnone, -⟩ | hbehind, hhost⟩
      · exact .inr (.inl hnone)
      · exact .inr (.inr ⟨rest, hbehind, hhost⟩)
    · rintro (hne | hnone | ⟨rest, hbehind, hhost⟩)
      · exact absurd rfl hne
      · exact ⟨u.rest, .inl ⟨hnone, htext⟩, u.rest_hasHost⟩
      · exact ⟨rest, .inr hbehind, hhost⟩
  · have htext : u.text = scheme ++ ([':', '/', '/'] ++ u.rest) := by rw [text, hscheme]
    have hcolon : ':' ∉ scheme := fun hc =>
      u.scheme_plain ':' (by rw [hscheme]; exact hc) List.mem_cons_self
    have hbehind : BehindMark u.text u.rest := ⟨scheme, htext, firstAt_of_not_mem hcolon⟩
    exact iff_of_true ⟨u.rest, .inr hbehind, u.rest_hasHost⟩ (.inl nofun)

end Url

section Guard
variable {F : Type} [Double F]

/-- **When the guard cannot be bypassed.**  `HostOf` returns the host of a URL, and the loader
accepts it as order or user-data URL only if that host is on the allowlist, exactly if a
scheme is written, or no `://` occurs, or the same host stands behind the first `://`. -/
theorem host_guard_iff (u : Url) :
    (hostOf u.text = u.host ∧
      ∀ (tomlPath : String) (doc : Except String (TomlTable F)) (envPath : String)
        (dotenv : Option (List String)) (env : Env) (cfg : AppConfig F),
        loadConfig tomlPath doc envPath dotenv env = .ok cfg →
          (cfg.restUrl.toList = u.text ∨ cfg.orders.userDataWsUrl.toList = u.text) →
            isTestnetOrderHost u.host = true) ↔
      u.scheme ≠ none ∨ ¬ [':', '/', '/'] <:+: u.text ∨
        ∃ rest, BehindMark u.text rest ∧ HasHost u.host rest := by
  rw [← u.hostOf_text_iff]
  refine ⟨And.left, fun hhost => ⟨hhost, ?_⟩⟩
  intro tomlPath doc envPath dotenv env cfg hload hurl
  obtain ⟨_, _, -, -, -, hvalid⟩ := loadConfig_eq_ok_iff.mp hload
  rcases hurl with hurl | hurl
  · exact hhost ▸ hurl ▸ hvalid.rest_host
  · exact hhost ▸ hurl ▸ hvalid.user_data_host

/-- A URL with all its parts, and the host twice. -/
def fullUrl : Url where
  scheme := some "https".toList
  user := some "user:pass@home".toList
  host := "testnet.binance.vision".toList
  port := some "443".toList
  suffix := "/x?y=http://evil.com".toList
  scheme_plain := plain_of_all (by decide)
  user_plain := plain_of_all (by decide)
  host_ne_nil := by decide
  host_plain := plain_of_all (by decide)
  port_digits := List.all_eq_true.mp (by decide)
  suffix_head := by simp

theorem host_guard_full :
    fullUrl.scheme ≠ none ∧ hostOf fullUrl.text = "testnet.binance.vision".toList :=
  ⟨nofun, ((host_guard_iff (F := Strategy.Whole) fullUrl).mpr (.inl nofun)).1⟩

/-- A URL without a scheme that has another URL in its query. -/
def evilUrl : Url where
  scheme := none
  user := none
  host := "evil.com".toList
  port := none
  suffix := "?next=https://testnet.binance.vision".toList
  scheme_plain := nofun
  user_plain := nofun
  host_ne_nil := by decide
  host_plain := plain_of_all (by decide)
  port_digits := nofun
  suffix_head := by simp

/-- A document with nothing but a symbol and an order URL. -/
def tableOf (symbol restUrl : String) : TomlTable Strategy.Whole where
  str := fun table key =>
    if table = "exchange" ∧ key = "symbol" then some symbol
    else if table = "exchange" ∧ key = "rest_url" then some restUrl
    else none
  int := fun _ _ => none
  i64 := fun _ _ => none
  double := fun _ _ => none
  bool := fun _ _ => none

/-- **The guard is bypassed**: a URL of another host is accepted as the order URL. -/
theorem host_guard_bypassed :
    evilUrl.text = "evil.com?next=https://testnet.binance.vision".toList ∧
      hostOf evilUrl.text = "testnet.binance.vision".toList ∧
      isTestnetOrderHost evilUrl.host = false ∧
      ∃ cfg, loadConfig "evil.toml"
          (.ok (tableOf "BTCUSDT" "evil.com?next=https://testnet.binance.vision"))
          ".env" none (fun _ => none) = .ok cfg ∧
        cfg.restUrl.toList = evilUrl.text := by
  refine ⟨by decide +kernel, by decide +kernel, by decide, _, loadConfig_defaults _ ?_ ?_ rfl rfl,
    ?_⟩
  · decide
  · decide +kernel
  · decide +kernel

end Guard

end Asmm
