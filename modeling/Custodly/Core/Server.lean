import Custodly.Core.Seal
import Custodly.Core.Wire
import Custodly.Library.FormUrlencoded

/-! The `policy()` listener (`custodly-core/src/server.rs`): its routes, and the query a
caller puts to it.  A scope may be any text; what the listener answers is what `evaluate` says
of exactly the provider and the scope that the caller wrote.  Routing and the `Query` extractor
are as `axum` documents them. -/
namespace Custodly.Core
open Library Library.Strings Library.FormUrlencoded

inductive Method where
  | get
  | head
  | other (name : Text)

structure HttpRequest where
  method : Method
  path : Text
  query : Text

/-- The status of an answer, and its body where that is JSON. -/
structure HttpAnswer where
  status : Nat
  body : Option Json

structure PolicyQuery where
  provider : Text
  scope : Text

def providerName : Text := "provider".toList
def scopeName : Text := "scope".toList

def parameter (name : Text) (pairs : List (Text × Text)) : Option Text :=
  match pairs.filter (·.1 = name) with
  | [pair] => some pair.2
  | _ => none

def PolicyQuery.ofPairs (pairs : List (Text × Text)) : Option PolicyQuery :=
  (parameter providerName pairs).bind fun provider =>
    (parameter scopeName pairs).map fun scope => ⟨provider, scope⟩

/-- The route with the `Query` extractor before its handler, which refuses what it cannot
read. -/
def policyAnswer (utf8 : Utf8Lossy) (query : Text) : HttpAnswer :=
  match PolicyQuery.ofPairs (parse utf8 query) with
  | some query => ⟨200, some (policyHandler query.provider query.scope)⟩
  | none => ⟨400, none⟩

def health : Json :=
  .object [("contract_version".toList, .string contractVersion),
    ("status".toList, .string "ok".toList)]

/-- A `get` route answers `HEAD` without a body. -/
def onGet (method : Method) (answer : HttpAnswer) : HttpAnswer :=
  match method with
  | .get => answer
  | .head => ⟨answer.status, none⟩
  | .other _ => ⟨405, none⟩

def healthPath : Text := "/healthz".toList
def policyPath : Text := "/v1/boundary/policy".toList

def app (utf8 : Utf8Lossy) (request : HttpRequest) : HttpAnswer :=
  if request.path = healthPath then onGet request.method ⟨200, some health⟩
  else if request.path = policyPath then onGet request.method (policyAnswer utf8 request.query)
  else ⟨404, none⟩

/-- A success whose body reads as this response, whatever the order of its members. -/
def Answers (answer : HttpAnswer) (response : PolicyResponse) : Prop :=
  answer.status = 200 ∧ ∃ body, answer.body = some body ∧
    ∀ members, (Json.object members).Shows body →
      PolicyResponse.record.ofJson (.object members) = some response

def Given (pairs : List (Text × Text)) (name value : Text) : Prop :=
  (pairs.filter fun pair => pair.1 = name) = [(name, value)]

instance (pairs : List (Text × Text)) (name value : Text) : Decidable (Given pairs name value) :=
  inferInstanceAs (Decidable (_ = _))

theorem parameter_eq_some_iff {name value : Text} {pairs : List (Text × Text)} :
    parameter name pairs = some value ↔ Given pairs name value := by
  have hname : ∀ pair ∈ pairs.filter (fun pair => pair.1 = name), pair.1 = name := by
    intro pair hpair
    simpa using (List.mem_filter.1 hpair).2
  unfold parameter Given
  generalize pairs.filter (fun pair => pair.1 = name) = found at hname
  match found with
  | [] => simp
  | [(key, value')] =>
    obtain rfl : key = name := hname _ (List.mem_singleton_self _)
    simp
  | _ :: _ :: _ => simp

theorem ofPairs_eq_some_iff {pairs : List (Text × Text)} {query : PolicyQuery} :
    PolicyQuery.ofPairs pairs = some query ↔
      Given pairs providerName query.provider ∧ Given pairs scopeName query.scope := by
  obtain ⟨provider, scope⟩ := query
  simp [PolicyQuery.ofPairs, Option.bind_eq_some_iff, ← parameter_eq_some_iff]

theorem answers_policyHandler_iff {provider scope : Text} {response : PolicyResponse} :
    Answers ⟨200, some (policyHandler provider scope)⟩ response ↔
      response = evaluate provider scope := by
  constructor
  · rintro ⟨-, body, hbody, hread⟩
    obtain rfl := Option.some.inj hbody
    have hself := hread _ (Json.shows_self)
    rw [policyHandler_read (Json.shows_self), Option.some.injEq] at hself
    exact hself.symm
  · rintro rfl
    exact ⟨rfl, _, rfl, fun members hshows => policyHandler_read hshows⟩

theorem not_answers_health {response : PolicyResponse} : ¬ Answers ⟨200, some health⟩ response := by
  rintro ⟨-, body, hbody, hread⟩
  obtain rfl := Option.some.inj hbody
  have hself := hread _ (Json.shows_self)
  cases hself

theorem not_answers_of_body {answer : HttpAnswer} {response : PolicyResponse}
    (h : answer.body = none) : ¬ Answers answer response := by
  rintro ⟨-, body, hbody, -⟩
  rw [h] at hbody
  cases hbody

theorem answers_onGet_iff {method : Method} {answer : HttpAnswer} {response : PolicyResponse} :
    Answers (onGet method answer) response ↔ method = .get ∧ Answers answer response := by
  cases method with
  | get => simp [onGet]
  | head => simp [onGet, not_answers_of_body]
  | other name => simp [onGet, not_answers_of_body]

theorem answers_policyAnswer_iff {utf8 : Utf8Lossy} {query : Text} {response : PolicyResponse} :
    Answers (policyAnswer utf8 query) response ↔ ∃ provider scope,
      Given (parse utf8 query) providerName provider ∧ Given (parse utf8 query) scopeName scope ∧
        response = evaluate provider scope := by
  have hgiven (provider scope : Text) : PolicyQuery.ofPairs (parse utf8 query) =
      some ⟨provider, scope⟩ ↔ Given (parse utf8 query) providerName provider ∧
        Given (parse utf8 query) scopeName scope := ofPairs_eq_some_iff
  simp only [← and_assoc, ← hgiven]
  unfold policyAnswer
  cases PolicyQuery.ofPairs (parse utf8 query) with
  | none =>
    refine iff_of_false (not_answers_of_body rfl) ?_
    rintro ⟨provider, scope, hquery, -⟩
    cases hquery
  | some query =>
    rw [answers_policyHandler_iff]
    constructor
    · exact fun h => ⟨query.provider, query.scope, rfl, h⟩
    · rintro ⟨provider, scope, hquery, rfl⟩
      cases hquery
      rfl

theorem answers_app_iff {utf8 : Utf8Lossy} {request : HttpRequest} {response : PolicyResponse} :
    Answers (app utf8 request) response ↔
      request.method = .get ∧ request.path = policyPath ∧ ∃ provider scope,
        Given (parse utf8 request.query) providerName provider ∧
        Given (parse utf8 request.query) scopeName scope ∧
          response = evaluate provider scope := by
  unfold app
  by_cases hhealth : request.path = healthPath
  · rw [if_pos hhealth, answers_onGet_iff]
    refine iff_of_false (fun h => not_answers_health h.2) ?_
    rintro ⟨-, hpolicy, -⟩
    rw [hhealth] at hpolicy
    exact absurd hpolicy (by decide)
  · rw [if_neg hhealth]
    by_cases hpolicy : request.path = policyPath
    · rw [if_pos hpolicy, answers_onGet_iff, answers_policyAnswer_iff]
      simp only [hpolicy, true_and]
    · rw [if_neg hpolicy]
      exact iff_of_false (not_answers_of_body rfl) fun h => hpolicy h.2.1

/-- The caller's request: its parameters in any order, and any others among them. -/
def policyRequest (pairs : List (Text × Text)) : HttpRequest := ⟨.get, policyPath, serialize pairs⟩

/-- What a caller asks, with whatever characters, is what is answered, or the request is
refused; and no request of any kind is answered with a tier below 2 but one for the one known
provider and a scope of ordinary resources. -/
theorem policy_listener (utf8 : Utf8Lossy) :
    (∀ pairs provider scope, Given pairs providerName provider → Given pairs scopeName scope →
      Answers (app utf8 (policyRequest pairs)) (evaluate provider scope)) ∧
    (∀ pairs, (¬ ∃ provider scope, Given pairs providerName provider ∧
      Given pairs scopeName scope) → app utf8 (policyRequest pairs) = ⟨400, none⟩) ∧
    ∀ request response, Answers (app utf8 request) response → response.tier ≤ 1 →
      request.method = .get ∧ request.path = policyPath ∧
      Given (parse utf8 request.query) providerName github ∧
      ∃ scope, Given (parse utf8 request.query) scopeName scope ∧
        ScopeIn ordinaryResources scope := by
  refine ⟨?_, ?_, ?_⟩
  · intro pairs provider scope hprovider hscope
    rw [answers_app_iff]
    refine ⟨rfl, rfl, provider, scope, ?_, ?_, rfl⟩
    · rwa [policyRequest, parse_serialize]
    · rwa [policyRequest, parse_serialize]
  · intro pairs hnone
    have hrefused : PolicyQuery.ofPairs pairs = none := by
      rw [Option.eq_none_iff_forall_ne_some]
      exact fun query hquery => hnone ⟨_, _, ofPairs_eq_some_iff.1 hquery⟩
    have hne : policyPath ≠ healthPath := by decide
    simp only [app, policyRequest, if_neg hne, if_true, onGet, policyAnswer, parse_serialize,
      hrefused]
  · intro request response hanswers htier
    obtain ⟨hmethod, hpath, provider, scope, hprovider, hscope, rfl⟩ := answers_app_iff.1 hanswers
    obtain ⟨rfl, hordinary⟩ := (evaluate_tier_le_one_iff provider scope).1 htier
    exact ⟨hmethod, hpath, hprovider, scope, hscope, hordinary⟩

def sampleUtf8 : Utf8Lossy where
  decode bytes := (fromUtf8 bytes).getD [Char.ofNat 0xFFFD]
  decode_encode text := by
    change (fromUtf8 (asBytes text)).getD _ = text
    rw [fromUtf8_asBytes, Option.getD_some]

def smuggledScope : Text := "repo:read&provider=github".toList

theorem policy_listener_sample :
    Answers (app sampleUtf8 (policyRequest [(scopeName, smuggledScope),
      (providerName, "stripe".toList)])) (evaluate "stripe".toList smuggledScope) :=
  (policy_listener sampleUtf8).1 _ _ _ (by decide) (by decide)

end Custodly.Core
