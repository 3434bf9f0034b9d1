import Custodly.Cli.Protocol
import Custodly.Github.Wire

/-! What a mint asks GitHub for and what it takes from the answer (`custodly-cli/src/main.rs`,
`custodly-github/src/app.rs`), in the JSON of the two bodies. -/
namespace Custodly.Cli.MintGithub
open Library Library.Strings Library.Interaction Library.Surroundings Custodly.Core Github Host

variable {T EncodingKey Key Cipher : Type}

/-- GitHub's baseline, or `read` or `write` of a resource on the command line, and `write` only
where the last level given for it there is not `read`. -/
def Allows (args : MintGithub) (resource level : Text) : Prop :=
  resource = metadataResource ∧ level = readLevel ∨
    ∃ asked, lastLevel args.permissions resource = some asked ∧
      (level = readLevel ∨ level = writeLevel ∧ asked ≠ readLevel)

theorem covered_grant_iff {args : MintGithub} {resource level : Text} :
    Covered args.grant.permissions (resource, level) ↔ args.Allows resource level := by
  unfold Covered Allows grant
  simp only [getElem?_ofList_eq_lastLevel]

variable [DateTimeUtc T]

/-- The reply is a success whose body reports a token, with the last level of each resource
allowed; the minted token is the one reported. -/
def Grants (args : MintGithub) (response : HttpResponse (AccessTokenBody T)) (json : Json)
    (minted : MintedToken T) : Prop :=
  response.isSuccess ∧ ∃ token expiresAt levels, Reports json token expiresAt levels ∧
    (∀ resource level, lastLevel levels resource = some level → args.Allows resource level) ∧
    minted = .fromResponse ⟨token, expiresAt, .ofList levels⟩

/-- The body of the request says what the command line says, in whatever order its members come;
the run mints what the reply grants, and without that nothing leaves the command and it fails. -/
structure Exchanged (args : MintGithub) (trace : Trace T) (value : Option (Except CliError Unit))
    (request : AccessTokenRequest) (response : HttpResponse (AccessTokenBody T)) (json : Json) :
    Prop where
  asks : ∀ members, members.Perm (requestMembers request.repositoryIds request.permissions) →
    ∃ asked, readAsked (.object members) =
        some (if args.repositoryIds = [] then none else some args.repositoryIds, asked) ∧
      ∀ resource, asked[resource]? = lastLevel args.permissions resource
  mints : ∀ minted, Mints args trace minted ↔ args.Grants response json minted
  deposits : ∀ request reply, ⟨.deposit request, reply⟩ ∈ trace →
    ∃ minted, args.Grants response json minted
  caches : ∀ entry, Caches trace entry →
    ∃ minted, args.Grants response json minted ∧ entry.secret = minted.token
  succeeds : value = some (.ok ()) → ∃ minted, args.Grants response json minted

section Exchange

variable {jwt : Jwt EncodingKey} {crypto : Crypto Key Cipher} {args : MintGithub}
  {trace : Trace T} {value : Option (Except CliError Unit)} {request : AccessTokenRequest}

theorem MintStep.asked {reply : HttpReply (AccessTokenBody T)} {s s' : Stage T args}
    (h : MintStep jwt crypto args s ⟨.accessToken request, reply⟩ s') :
    request.repositoryIds = args.grant.repositoryIds ∧
      request.permissions = args.grant.permissions := by
  cases h with
  | aside _ haside => exact haside.elim
  | work hwork => exact hwork.elim
  | mint hjwt => exact ⟨rfl, rfl⟩

omit [DateTimeUtc T] in
theorem readAsked_grant (hids : ∀ id ∈ args.repositoryIds, id < 2 ^ 64)
    {members : List (Text × Json)}
    (h : members.Perm (requestMembers args.grant.repositoryIds args.grant.permissions)) :
    readAsked (.object members) =
      some (if args.repositoryIds = [] then none else some args.repositoryIds,
        args.grant.permissions) := by
  have hgrant : args.grant.repositoryIds =
      if args.repositoryIds = [] then none else some args.repositoryIds := by
    simp only [grant, List.isEmpty_iff]
  have hbound : ∀ ids ∈ args.grant.repositoryIds, ∀ id ∈ ids, id < 2 ^ 64 := by
    intro ids hasked
    rw [hgrant, Option.mem_def] at hasked
    split at hasked
    · cases hasked
    · rw [← Option.some.inj hasked]
      exact hids
  rw [readAsked_requestMembers hbound h, hgrant]

/-- What is asked of GitHub and what is taken from its answer is exact. -/
theorem exchange_exact (hids : ∀ id ∈ args.repositoryIds, id < 2 ^ 64)
    (h : Run (run jwt crypto args).run trace value)
    {response : HttpResponse (AccessTokenBody T)}
    (hasked : ⟨.accessToken request, .ok response⟩ ∈ trace) {json : Json}
    (hread : ReadsAs json response) : Exchanged args trace value request response json := by
  obtain ⟨last, hfollows, -⟩ := h.refines leads_run
  have hmints (minted : MintedToken T) :
      Mints args trace minted ↔ args.Grants response json minted := by
    have hjson := @readAccessToken_json_iff T _ json args.grant response minted hread
    simp only [covered_grant_iff] at hjson
    refine Iff.trans ?_ hjson
    constructor
    · rintro ⟨other, reply, hother, hminted⟩
      have hsame := hfollows.eq_of_mark (fun _ _ _ hstep => MintStep.climbs hstep) hasked hother
        rfl rfl
      cases hsame
      exact hminted
    · exact fun hminted => ⟨request, _, hasked, hminted⟩
  refine ⟨fun members hmembers => ?_, hmints, fun other reply hdeposit => ?_,
    fun entry hcaches => ?_, fun hsucceeds => ?_⟩
  · obtain ⟨before, after, hstep⟩ := hfollows.step_of_mem hasked
    rw [hstep.asked.1, hstep.asked.2] at hmembers
    exact ⟨_, readAsked_grant hids hmembers, getElem?_ofList_eq_lastLevel args.permissions⟩
  · obtain ⟨before, hbefore, minted, hminted, -⟩ := rule_of_mem h hdeposit
    exact ⟨minted, (hmints minted).1 (hminted.mono hbefore)⟩
  · obtain ⟨before, minted, hbefore, hholding, htoken, -⟩ := holding_of_caches h hcaches
    exact ⟨minted, (hmints minted).1 (hholding.mints.mono hbefore), htoken.symm⟩
  · subst hsucceeds
    obtain ⟨-, minted, hminted, -⟩ := goal_of_run h
    exact ⟨minted, (hmints minted).1 hminted⟩

end Exchange

def sampleJson : Json :=
  .object [("permissions".toList, Json.ofTexts secretsRead),
    ("repository_selection".toList, .string "all".toList),
    ("expires_at".toList, .string (DateTimeUtc.toRfc3339 SampleInstant.one)),
    ("token".toList, .string "ghs_a".toList)]

theorem readsAs_sampleJson :
    ReadsAs sampleJson ⟨201, .ok [], .ok (sampleBody "ghs_a".toList secretsRead)⟩ := rfl

theorem exchange_exact_sample : ∃ request response,
    Exchanged (sampleArgs secretsRead) (samplePlay secretsRead "ghs_a".toList).1 (some (.ok ()))
      request response sampleJson := by
  have hrun := Program.run_play samplePlay_succeeds
  obtain ⟨-, minted, ⟨request, reply, hasked, -⟩, -⟩ := goal_of_run hrun
  have hanswer := Program.answer_of_mem_play hasked
  cases hanswer
  exact ⟨request, _, exchange_exact (by simp [sampleArgs]) hrun hasked readsAs_sampleJson⟩

end Custodly.Cli.MintGithub
