import CryptoBook.Smoke

/-! # What the smoke test sends

`RunSmoke` has four checks and five requests.  Whatever the exchange answers, the requests are the
first few of `plan`, each made only after the one before was answered with status 200; so the test
places no order, and stops at the first failure.  It returns 0 exactly if it has sent all five, and
a listen key that it was given is deleted before it returns.  The answer to the deletion is not
looked at (`smoke_follows_plan`). -/
namespace Asmm
open Interaction

namespace Main

/-- A request and its answer. -/
structure Sent where
  method : HttpMethod
  target : String
  result : HttpResult

/-- The target of a request. -/
def targetOf (path params : String) : String := if params = "" then path else path ++ "?" ++ params

/-- The target without its parameters. -/
def pathOf (target : String) : List Char := target.toList.takeWhile (· ≠ '?')

/-- What is requested. -/
def Sent.call (x : Sent) : HttpMethod × List Char := (x.method, pathOf x.target)

/-- The requests of the four checks. -/
def plan : List (HttpMethod × List Char) :=
  [(.kGet, "/api/v3/time".toList), (.kGet, "/api/v3/exchangeInfo".toList),
    (.kPost, "/api/v3/order/test".toList), (.kPost, "/api/v3/userDataStream".toList),
    (.kDelete, "/api/v3/userDataStream".toList)]

/-- The requests of a call. -/
def sentBy : (c : NetCall) → c.Answer → List Sent
  | .nowMs, _ => []
  | .send method _ target _, r => [⟨method, target, r⟩]

/-- The requests are the first of the plan, and all but the last have succeeded. -/
structure InPlan (h : List Sent) : Prop where
  planned : h.map Sent.call <+: plan
  succeeded : ∀ x ∈ h.dropLast, x.result.ok = true

/-- The first `k` requests have been made, with success. -/
structure Stage (k : Nat) (h : List Sent) : Prop where
  made : h.map Sent.call = plan.take k
  succeeded : ∀ x ∈ h, x.result.ok = true

/-- What is known when the test returns. -/
structure Ended (r : SmokeResult) (h : List Sent) : Prop where
  green : r = .allGreen ↔ h.length = plan.length
  deleted : ∀ lk, h[3]? = some lk → lk.result.ok = true →
    findJsonStr lk.result.body "listenKey" ≠ "" → ∃ del, h[4]? = some del ∧
      del.target = targetOf "/api/v3/userDataStream"
        ("listenKey=" ++ findJsonStr lk.result.body "listenKey")

def planMonitor : Monitor NetCall NetCall.Answer Sent where
  emit := sentBy
  admits := fun _ _ => True
  inv := InPlan

section Stages
variable {k : Nat} {h : List Sent} {x : Sent}

theorem Stage.inv (hs : Stage k h) : InPlan h :=
  ⟨hs.made ▸ List.take_prefix k plan, fun y hy => hs.succeeded y (List.mem_of_mem_dropLast hy)⟩

theorem Stage.made_concat (hs : Stage k h) (hx : plan[k]? = some x.call) :
    (h ++ [x]).map Sent.call = plan.take (k + 1) := by
  rw [List.map_append, hs.made, List.take_add_one, hx]
  rfl

/-- The next request of the plan. -/
theorem Stage.send (hs : Stage k h) (hx : plan[k]? = some x.call) : InPlan (h ++ [x]) := by
  refine ⟨hs.made_concat hx ▸ List.take_prefix (k + 1) plan, fun y hy => ?_⟩
  rw [List.dropLast_concat] at hy
  exact hs.succeeded y hy

theorem Stage.next (hs : Stage k h) (hx : plan[k]? = some x.call) (hok : x.result.ok = true) :
    Stage (k + 1) (h ++ [x]) := by
  refine ⟨hs.made_concat hx, fun y hy => ?_⟩
  rcases List.mem_append.mp hy with hy | hy
  · exact hs.succeeded y hy
  · rw [List.mem_singleton.mp hy]
    exact hok

theorem Stage.length_eq (hs : Stage k h) (hk : k ≤ plan.length) : h.length = k := by
  have hlen := congrArg List.length hs.made
  rwa [List.length_map, List.length_take, Nat.min_eq_left hk] at hlen

/-- A test that gives up before the fourth request has sent too few. -/
theorem Ended.early {r : SmokeResult} (hr : r ≠ .allGreen) (hlen : h.length < 4) : Ended r h := by
  have hplan : plan.length = 5 := rfl
  refine ⟨iff_of_false hr (by omega), fun lk hlk => ?_⟩
  rw [List.getElem?_eq_none (by omega)] at hlk
  cases hlk

end Stages

/-! ## The checks -/

theorem pathOf_targetOf {path : String} (hpath : '?' ∉ path.toList) (params : String) :
    pathOf (targetOf path params) = path.toList := by
  have hall : ∀ c ∈ path.toList, decide (c ≠ '?') = true := fun c hc =>
    decide_eq_true fun heq => hpath (heq ▸ hc)
  rw [targetOf]
  split
  · exact List.takeWhile_eq_self_iff.mpr hall
  · rw [pathOf, String.toList_append, String.toList_append, List.append_assoc,
      List.takeWhile_append_of_pos hall]
    exact List.append_nil _

section Checks
variable {F : Type} {k : Nat} {h : List Sent} {host : String} (hmac : String → String → String)
  (hhost : isTestnetOrderHost host.toList = true)
include hhost

/-- A request of the plan. -/
theorem wp_planned {Q : HttpResult → List Sent → Prop} (c : SignedRestClient)
    {method : HttpMethod} {path : String} (query : String) (sign : Bool) (hs : Stage k h)
    (hpath : '?' ∉ path.toList) (hplan : plan[k]? = some (method, path.toList))
    (hQ : ∀ x : Sent, plan[k]? = some x.call → (sign = false → x.target = targetOf path query) →
      Q x.result (h ++ [x])) :
    planMonitor.wp Q (c.request hmac method host path query sign) h := by
  have hsend : ∀ params, (sign = false → params = query) →
      planMonitor.wp Q (Net.send method host (targetOf path params) c.apiKey) h := by
    intro params hparams
    refine Monitor.wp_perform hs.inv fun r _ => ?_
    have hx : plan[k]? = some (Sent.call ⟨method, targetOf path params, r⟩) := by
      rw [hplan, Sent.call, pathOf_targetOf hpath]
    exact ⟨hs.send hx, hQ _ hx fun hsign => by rw [hparams hsign]⟩
  rw [SignedRestClient.request, if_neg (ne_false_of_eq_true hhost)]
  refine Monitor.wp_bind ?_
  rw [SignedRestClient.requestParams]
  split
  · exact Monitor.wp_pure hs.inv (hsend query fun _ => rfl)
  · next hsign =>
    refine Monitor.wp_bind (Monitor.wp_perform_silent (fun _ => rfl) hs.inv fun now _ => ?_)
    exact Monitor.wp_pure hs.inv (hsend _ fun h => absurd h hsign)

theorem wp_userData (rest : SignedRestClient) (hs : Stage 3 h) :
    planMonitor.wp Ended (smokeUserData hmac rest host) h := by
  have hlen : h.length = 3 := hs.length_eq (by decide)
  refine Monitor.wp_bind (wp_planned hmac hhost rest _ _ hs (by decide) rfl ?_)
  intro lk hlk _
  have hthird : ∀ rest x, (h ++ lk :: rest)[3]? = some x → x = lk := by
    intro rest x hx
    rw [List.getElem?_append_right (by omega), hlen] at hx
    exact (Option.some.inj hx).symm
  dsimp only
  split
  · next hfailed =>
    refine Monitor.wp_pure (hs.send hlk) ⟨iff_of_false (by rintro ⟨⟩) ?_, fun x hx hok hkey => ?_⟩
    · rw [List.length_append, hlen, List.length_singleton]
      decide
    · obtain rfl := hthird [] x hx
      rcases hfailed with hno | hnone
      · exact absurd (hok.symm.trans hno) (by decide)
      · exact absurd hnone hkey
  · next hgiven =>
    have hok : lk.result.ok = true := Bool.eq_true_of_not_eq_false fun hno => hgiven (.inl hno)
    have hs' := hs.next hlk hok
    refine Monitor.wp_bind (wp_planned hmac hhost rest _ _ hs' (by decide) rfl ?_)
    intro del hdel htarget
    refine Monitor.wp_pure (hs'.send hdel) ⟨iff_of_true rfl ?_, fun x hx _ _ => ⟨del, ?_, ?_⟩⟩
    · rw [List.length_append, List.length_append, hlen]
      rfl
    · rw [List.getElem?_append_right (by simp [hlen])]
      simp [hlen]
    · rw [List.append_assoc] at hx
      obtain rfl := hthird [del] x hx
      exact htarget rfl

variable (cfg : AppConfig F)

theorem wp_order (rest : SignedRestClient) (hs : Stage 2 h) :
    planMonitor.wp Ended (smokeOrder hmac cfg rest host) h := by
  have hlen : h.length = 2 := hs.length_eq (by decide)
  rw [smokeOrder]
  split
  · refine Monitor.wp_bind (wp_planned hmac hhost rest _ _ hs (by decide) rfl ?_)
    intro ot hot _
    split
    · exact Monitor.wp_pure (hs.send hot) (.early (by rintro ⟨⟩) (by simp [hlen]))
    · next hok => exact wp_userData hmac hhost rest (hs.next hot (Bool.eq_true_of_not_eq_false hok))
  · exact hs.inv

theorem wp_filters (rest : SignedRestClient) (hs : Stage 1 h) :
    planMonitor.wp Ended (smokeFilters hmac cfg rest host) h := by
  have hlen : h.length = 1 := hs.length_eq (by decide)
  refine Monitor.wp_bind (wp_planned hmac hhost rest _ _ hs (by decide) rfl ?_)
  intro ei hei _
  dsimp only
  split
  · exact Monitor.wp_pure (hs.send hei) (.early (by rintro ⟨⟩) (by simp [hlen]))
  next hok =>
  split
  · exact Monitor.wp_pure (hs.send hei) (.early (by rintro ⟨⟩) (by simp [hlen]))
  · exact wp_order hmac hhost cfg rest (hs.next hei (Bool.eq_true_of_not_eq_false hok))

theorem wp_time (rest : SignedRestClient) (hs : Stage 0 h) :
    planMonitor.wp Ended (smokeTime hmac cfg rest host) h := by
  have hlen : h.length = 0 := hs.length_eq (by decide)
  refine Monitor.wp_bind (Monitor.wp_perform_silent (fun _ => rfl) hs.inv fun before _ => ?_)
  refine Monitor.wp_bind (wp_planned hmac hhost rest _ _ hs (by decide) rfl ?_)
  intro t ht _
  have hearly : ∀ r : SmokeResult, r ≠ .allGreen → planMonitor.wp Ended (pure r) (h ++ [t]) :=
    fun r hr => Monitor.wp_pure (hs.send ht) (.early hr (by simp [hlen]))
  dsimp only
  split
  · exact hearly _ (by rintro ⟨⟩)
  next hok =>
  split
  · exact hearly _ (by rintro ⟨⟩)
  split
  · exact hearly _ (by rintro ⟨⟩)
  · exact wp_filters hmac hhost cfg _ (hs.next ht (Bool.eq_true_of_not_eq_false hok))

end Checks

theorem wp_smoke {F : Type} (hmac : String → String → String) (cfg : AppConfig F) :
    planMonitor.wp Ended (runSmoke hmac cfg) [] := by
  have hs : Stage 0 [] := ⟨rfl, by simp⟩
  have hearly : ∀ r : SmokeResult, r ≠ .allGreen → planMonitor.wp Ended (pure r) [] := fun r hr =>
    Monitor.wp_pure hs.inv (.early hr (by decide))
  rw [runSmoke]
  split
  · exact hearly _ (by rintro ⟨⟩)
  dsimp only
  split
  · exact hearly _ (by rintro ⟨⟩)
  · next hhost =>
    refine wp_time hmac ?_ cfg _ hs
    rw [String.toList_ofList]
    exact Bool.eq_true_of_not_eq_false hhost

/-- **The smoke test follows its plan.**  Under any configuration, whatever the exchange answers
and whenever one looks: the requests made are the first of the plan, none of which places an order,
and all but the last were answered with status 200.  When the test has returned, its exit code is 0
exactly if all five were made, and a listen key that was given has been sent back for deletion. -/
theorem smoke_follows_plan {F : Type} (hmac : String → String → String) (cfg : AppConfig F)
    (answers : Nat → (c : NetCall) → c.Answer) (calls : Nat) :
    let sent := ((runSmoke hmac cfg).exec answers calls).flatMap fun x => sentBy x.1 x.2
    sent.map Sent.call <+: plan ∧ (∀ x ∈ sent.dropLast, x.result.ok = true) ∧
      ∀ r, (runSmoke hmac cfg).outcome answers calls = some r →
        (r.exitCode = 0 ↔ sent.length = plan.length) ∧
        ∀ lk, sent[3]? = some lk → lk.result.ok = true →
          findJsonStr lk.result.body "listenKey" ≠ "" → ∃ del, sent[4]? = some del ∧
            del.target = targetOf "/api/v3/userDataStream"
              ("listenKey=" ++ findJsonStr lk.result.body "listenKey") := by
  intro sent
  have hinv : InPlan sent := Monitor.wp_exec (wp_smoke hmac cfg) answers (fun _ _ => trivial) calls
  refine ⟨hinv.planned, hinv.succeeded, fun r hr => ?_⟩
  have hended : Ended r sent :=
    Monitor.wp_outcome (wp_smoke hmac cfg) answers (fun _ _ => trivial) hr
  have hcode : r.exitCode = 0 ↔ r = .allGreen := by cases r <;> simp [SmokeResult.exitCode]
  exact ⟨hcode.trans hended.green, hended.deleted⟩

/-- The shipped exchange with both keys. -/
def shippedConfig : AppConfig Strategy.Whole :=
  (tableOf "BTCUSDT" "https://testnet.binance.vision").appConfig keys

/-- An exchange that passes every check and refuses the deletion. -/
def unwilling : Nat → (c : NetCall) → c.Answer
  | _, .nowMs => 0
  | 1, .send _ _ _ _ => ⟨200, "\x22serverTime\x22:0", ""⟩
  | 2, .send _ _ _ _ => ⟨200, "\x22tickSize\x22:\x220.01\x22,\x22stepSize\x22:\x220.00001\x22", ""⟩
  | 4, .send _ _ _ _ => ⟨200, "", ""⟩
  | 5, .send _ _ _ _ => ⟨200, "\x22listenKey\x22:\x22k\x22", ""⟩
  | _, .send _ _ _ _ => ⟨400, "", ""⟩

/-- The test is green although the listen key was not deleted. -/
theorem smoke_follows_plan_unwilling :
    let sent := ((runSmoke (fun _ _ => "") shippedConfig).exec unwilling 7).flatMap
      fun x => sentBy x.1 x.2
    (runSmoke (fun _ _ => "") shippedConfig).outcome unwilling 7 = some .allGreen ∧
      sent.length = 5 ∧ sent.getLast?.map (·.result.ok) = some false := by
  have hgreen : (runSmoke (fun _ _ => "") shippedConfig).outcome unwilling 7 = some .allGreen := by
    decide +kernel
  obtain ⟨-, -, hended⟩ := smoke_follows_plan (fun _ _ => "") shippedConfig unwilling 7
  exact ⟨hgreen, (hended _ hgreen).1.mp rfl, by decide +kernel⟩

end Main
end Asmm
