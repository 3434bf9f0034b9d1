import Custodly.Github.App

/-! How exact the quarantine is (`custodly-github/src/app.rs`).  A level asked for outside the
vocabulary ranks above every granted one, and the repositories a token reaches are not
looked at; these are the only ways in which more than was asked for comes through. -/
namespace Custodly.Github
open Library.Strings Library.Interaction Custodly.Core Host

def Baseline (entry : Text × Text) : Prop := entry.1 = metadataResource ∧ entry.2 = readLevel

instance (entry : Text × Text) : Decidable (Baseline entry) := instDecidableAnd

/-- GitHub's baseline, or a level of the vocabulary that is not above the one, also of the
vocabulary, at which the resource was asked for. -/
def WithinRequest (requested : Permissions) (entry : Text × Text) : Prop :=
  Baseline entry ∨ ∃ requestedLevel grantedRank requestedRank,
    requested[entry.1]? = some requestedLevel ∧ levelRank entry.2 = some grantedRank ∧
      levelRank requestedLevel = some requestedRank ∧ grantedRank ≤ requestedRank

def AskedInVocabulary (requested : Permissions) (entry : Text × Text) : Prop :=
  ¬ Baseline entry → ∀ level : Text, requested[entry.1]? = some level → level ∈ levels

/-- A resource nobody asked for, a granted level outside the vocabulary, or `write` where
`read` was asked for. -/
def Refused (requested : Permissions) (entry : Text × Text) : Prop :=
  ¬ Baseline entry ∧ (requested[entry.1]? = none ∨ entry.2 ∉ levels ∨
    entry.2 = writeLevel ∧ requested[entry.1]? = some readLevel)

theorem levelRank_isSome_iff {level : Text} : (levelRank level).isSome ↔ level ∈ levels := by
  constructor
  · intro h
    by_contra hout
    rw [levelRank_of_not_mem hout] at h
    cases h
  · intro h
    rcases List.mem_pair.1 h with hread | hwrite
    · rw [hread, levelRank_read]
      rfl
    · rw [hwrite, levelRank_write]
      rfl

theorem not_covered_iff {requested : Permissions} {entry : Text × Text} :
    ¬ Covered requested entry ↔ Refused requested entry := by
  have hlevels : entry.2 ∈ levels ↔ entry.2 = readLevel ∨ entry.2 = writeLevel := by
    simp [levels]
  unfold Covered Refused
  rw [not_or]
  apply and_congr Iff.rfl
  cases requested[entry.1]? with
  | none => simp
  | some level =>
    simp only [Option.some.injEq, exists_eq_left', reduceCtorEq, false_or, hlevels]
    by_cases hread : entry.2 = readLevel
    · simp [hread]
    · by_cases hwrite : entry.2 = writeLevel <;> simp [hread, hwrite]

theorem withinRequest_iff {requested : Permissions} {entry : Text × Text} :
    WithinRequest requested entry ↔
      Covered requested entry ∧ AskedInVocabulary requested entry := by
  unfold WithinRequest Covered AskedInVocabulary
  by_cases hbaseline : Baseline entry
  · simp only [hbaseline, true_or, not_true_eq_false, false_imp_iff, and_true, true_iff]
    exact .inl hbaseline
  · have hcovered : ¬ (entry.1 = metadataResource ∧ entry.2 = readLevel) := hbaseline
    simp only [hbaseline, hcovered, false_or, not_false_eq_true, true_imp_iff]
    cases requested[entry.1]? with
    | none => simp
    | some level =>
      simp only [Option.some.injEq, exists_eq_left', forall_eq', exists_and_left]
      constructor
      · rintro ⟨grantedRank, hgranted, requestedRank, hrequested, hle⟩
        have hlevel : level ∈ levels := levelRank_isSome_iff.1 (by rw [hrequested]; rfl)
        have hentry : entry.2 ∈ levels := levelRank_isSome_iff.1 (by rw [hgranted]; rfl)
        refine ⟨?_, hlevel⟩
        rcases List.mem_pair.1 hentry with hread | hwrite
        · exact .inl hread
        · refine .inr ⟨hwrite, fun hread => ?_⟩
          rw [hwrite, levelRank_write, Option.some.injEq] at hgranted
          rw [hread, levelRank_read, Option.some.injEq] at hrequested
          omega
      · rintro ⟨hcovered, hlevel⟩
        rcases hcovered with hread | ⟨hwrite, hnotRead⟩
        · obtain ⟨requestedRank, hrequested⟩ :=
            Option.isSome_iff_exists.1 (levelRank_isSome_iff.2 hlevel)
          exact ⟨0, by rw [hread, levelRank_read], requestedRank, hrequested, Nat.zero_le _⟩
        · have hasked : level = writeLevel := (List.mem_pair.1 hlevel).resolve_left hnotRead
          exact ⟨1, by rw [hwrite, levelRank_write], 1, by rw [hasked, levelRank_write], le_refl 1⟩

/-- The check says just what it is meant to say of two maps, unless some resource that comes
back was asked for at a level outside the vocabulary and no other entry is refused. -/
theorem quarantine_exact_iff (requested granted : Permissions) :
    (verifyNoScopeCreep requested granted = .ok () ↔
        ∀ entry ∈ granted.toList, WithinRequest requested entry) ↔
      (∀ entry ∈ granted.toList, AskedInVocabulary requested entry) ∨
        ∃ entry ∈ granted.toList, Refused requested entry := by
  rw [verifyNoScopeCreep_eq_ok_iff]
  simp only [withinRequest_iff, ← not_covered_iff]
  constructor
  · intro hexact
    by_cases hcovered : ∀ entry ∈ granted.toList, Covered requested entry
    · exact .inl fun entry hmem => (hexact.1 hcovered entry hmem).2
    · simp only [not_forall] at hcovered
      obtain ⟨entry, hmem, hout⟩ := hcovered
      exact .inr ⟨entry, hmem, hout⟩
  · rintro (hasked | ⟨entry, hmem, hout⟩)
    · exact forall₂_congr fun entry hmem => (and_iff_left (hasked entry hmem)).symm
    · have hrefused : ¬ ∀ entry ∈ granted.toList, Covered requested entry :=
        fun hall => hout (hall entry hmem)
      exact iff_of_false hrefused fun hall => hrefused fun e he => (hall e he).1

/-- Asking for `contents` at level `none` lets `contents: write` through. -/
theorem not_quarantine_exact :
    ¬ ∀ requested granted : Permissions, verifyNoScopeCreep requested granted = .ok () ↔
      ∀ entry ∈ granted.toList, WithinRequest requested entry := by
  intro h
  let requested : Permissions := .ofList [("contents".toList, "none".toList)]
  let granted : Permissions := .ofList [("contents".toList, writeLevel)]
  have hwithin := (h requested granted).1 (by decide) ("contents".toList, writeLevel) (by decide)
  have hasked := (withinRequest_iff.1 hwithin).2 (by decide) "none".toList (by decide)
  exact absurd hasked (by decide)

section Repositories

variable {T EncodingKey : Type} [DateTimeUtc T] {crate : Jwt EncodingKey} {app : AppCredentials}
  {grant : RequestedGrant} {trace : List (Event (Call T) (Reply T))}
  {value : Option (Except GithubError (MintedToken T))}

theorem run_mintInstallationToken
    (h : Run (mintInstallationToken crate app grant : Action T _ _).run trace value) :
    (∃ now request reply, trace = [⟨.now, now⟩, ⟨.accessToken request, reply⟩] ∧
        value = some (readAccessToken grant reply)) ∨
      (∀ request reply, ⟨.accessToken request, reply⟩ ∉ trace) ∧
        ∀ minted, value ≠ some (.ok minted) := by
  unfold mintInstallationToken at h
  rw [run_call_bind] at h
  rcases Run.ask_iff.1 h with ⟨now, rest, rfl, hsign⟩ | ⟨-, rfl, rfl⟩
  · cases hjwt : mintJwt crate app now with
    | error error =>
      rw [hjwt, run_attempt_error_bind, Run.done_iff] at hsign
      rw [hsign.1, hsign.2]
      exact .inr ⟨by simp, by simp⟩
    | ok jwt =>
      rw [hjwt, run_attempt_ok_bind, run_call_bind] at hsign
      rcases Run.ask_iff.1 hsign with ⟨reply, rest', rfl, hread⟩ | ⟨empty, -, -⟩
      · rw [run_attempt, Run.done_iff] at hread
        rw [hread.1, hread.2]
        exact .inl ⟨now, _, reply, rfl, rfl⟩
      · exact (empty.false (.error [])).elim
  · exact .inr ⟨by simp, by simp⟩

omit [DateTimeUtc T] in
theorem mem_asked {now : T} {request other : AccessTokenRequest}
    {reply answer : HttpReply (AccessTokenBody T)}
    (hmem : ⟨.accessToken other, answer⟩ ∈
      ([⟨.now, now⟩, ⟨.accessToken request, reply⟩] : List (Event (Call T) (Reply T)))) :
    answer = reply := by
  simp only [List.mem_cons, Sigma.mk.injEq, reduceCtorEq, false_and, false_or,
    Call.accessToken.injEq, List.not_mem_nil, or_false] at hmem
  obtain ⟨rfl, hanswer⟩ := hmem
  exact eq_of_heq hanswer

/-- A token that is handed back was granted the permissions asked for, and reaches only the
repositories asked for. -/
def HandsBackWithin (grant : RequestedGrant) (repositoryIds : List Nat)
    (trace : List (Event (Call T) (Reply T)))
    (value : Option (Except GithubError (MintedToken T))) : Prop :=
  ∀ minted, value = some (.ok minted) → ∃ request response body,
    ⟨.accessToken request, .ok response⟩ ∈ trace ∧ response.json = .ok body ∧
      minted.token = body.token ∧
      verifyNoScopeCreep grant.permissions (body.permissions.getD ∅) = .ok () ∧
      ∀ repository ∈ body.repositories, repository ∈ repositoryIds

/-- A reply that passes for its permissions reaches only the repositories asked for. -/
def RepliesWithin (grant : RequestedGrant) (repositoryIds : List Nat)
    (trace : List (Event (Call T) (Reply T))) : Prop :=
  ∀ request response body, ⟨.accessToken request, .ok response⟩ ∈ trace → response.isSuccess →
    response.json = .ok body →
    verifyNoScopeCreep grant.permissions (body.permissions.getD ∅) = .ok () →
    ∀ repository ∈ body.repositories, repository ∈ repositoryIds

/-- Only GitHub's own reply keeps a token to the repositories it was asked for. -/
theorem handsBackWithin_iff {repositoryIds : List Nat}
    (h : Run (mintInstallationToken crate app grant : Action T _ _).run trace value) :
    HandsBackWithin grant repositoryIds trace value ↔ RepliesWithin grant repositoryIds trace := by
  rcases run_mintInstallationToken h with ⟨now, request, reply, rfl, rfl⟩ | ⟨hasked, hvalue⟩
  · constructor
    · intro hwithin other response body hmem hsuccess hjson hverified
      have hreply := mem_asked hmem
      have hhanded : readAccessToken grant reply = .ok (.fromResponse (.ofBody body)) :=
        readAccessToken_eq_ok_iff.2 ⟨response, body, hreply.symm, hsuccess, hjson, hverified, rfl⟩
      obtain ⟨_, response', body', hmem', hjson', -, -, hreached⟩ :=
        hwithin _ (congrArg some hhanded)
      have hsame : response = response' := by
        have := hreply.trans (mem_asked hmem').symm
        rwa [Except.ok.injEq] at this
      rw [← hsame, hjson, Except.ok.injEq] at hjson'
      rwa [hjson']
    · intro hreplies minted hminted
      rw [Option.some.injEq] at hminted
      obtain ⟨response, body, rfl, hsuccess, hjson, hverified, rfl⟩ :=
        readAccessToken_eq_ok_iff.1 hminted
      exact ⟨request, response, body, by simp, hjson, rfl, hverified,
        hreplies request response body (by simp) hsuccess hjson hverified⟩
  · exact iff_of_true (fun minted hminted => (hvalue minted hminted).elim)
      fun request response body hmem => (hasked request _ hmem).elim

variable (crate app grant) in
theorem run_mintInstallationToken_of_reply {jwt : Text} {now : T}
    (hjwt : mintJwt crate app now = .ok jwt) (reply : HttpReply (AccessTokenBody T)) :
    Run (mintInstallationToken crate app grant).run
      [⟨.now, now⟩, ⟨.accessToken ⟨accessTokenUrl grant, jwt, accessTokenHeaders,
        grant.repositoryIds, grant.permissions⟩, reply⟩]
      (some (readAccessToken grant reply)) := by
  unfold mintInstallationToken
  rw [run_call_bind]
  apply @Run.ask _ (Reply T) _ .now _ now
  rw [hjwt, run_attempt_ok_bind, run_call_bind]
  apply @Run.ask _ (Reply T) _ (.accessToken _) _ reply
  rw [run_attempt]
  exact .done _

end Repositories

def narrowGrant : RequestedGrant where
  installationId := 789
  permissions := .ofList [("contents".toList, readLevel)]
  repositoryIds := some [1]

def wideBody : AccessTokenBody SampleInstant where
  token := "ghs_a".toList
  expiresAt := .one
  permissions := some narrowGrant.permissions
  repositories := [1, 2]

def wideReply : HttpReply (AccessTokenBody SampleInstant) := .ok ⟨201, .ok [], .ok wideBody⟩

theorem handsBackWithin_iff_wide : ∃ trace,
    Run (mintInstallationToken sampleJwt ⟨123456, []⟩ narrowGrant).run trace
        (some (readAccessToken narrowGrant wideReply)) ∧
      (HandsBackWithin narrowGrant [1] trace (some (readAccessToken narrowGrant wideReply)) ↔
        RepliesWithin narrowGrant [1] trace) := by
  have h := @run_mintInstallationToken_of_reply SampleInstant Unit _ sampleJwt ⟨123456, []⟩
    narrowGrant _ .noon rfl wideReply
  exact ⟨_, h, handsBackWithin_iff h⟩

/-- The token is handed back although it reaches a repository nobody asked for. -/
theorem not_handsBackWithin :
    ¬ ∀ (app : AppCredentials) (grant : RequestedGrant) (repositoryIds : List Nat)
      (trace : List (Event (Call SampleInstant) (Reply SampleInstant)))
      (value : Option (Except GithubError (MintedToken SampleInstant))),
      grant.repositoryIds = some repositoryIds →
      Run (mintInstallationToken sampleJwt app grant).run trace value →
      HandsBackWithin grant repositoryIds trace value := by
  intro hall
  have h := @run_mintInstallationToken_of_reply SampleInstant Unit _ sampleJwt ⟨123456, []⟩
    narrowGrant _ .noon rfl wideReply
  have hhanded : readAccessToken narrowGrant wideReply = .ok (.fromResponse (.ofBody wideBody)) :=
    readAccessToken_eq_ok_iff.2 ⟨_, wideBody, rfl, rfl, rfl, by decide, rfl⟩
  obtain ⟨request, response, body, hmem, hjson, -, -, hreached⟩ :=
    hall _ narrowGrant [1] _ _ rfl h _ (congrArg some hhanded)
  have hreply := (mem_asked hmem).symm
  cases hreply
  cases hjson
  exact absurd (hreached 2 (by decide)) (by decide)

end Custodly.Github
