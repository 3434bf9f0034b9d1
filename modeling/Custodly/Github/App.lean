import Custodly.Host

/-! Minting an installation access token (`custodly-github/src/app.rs`): sign a JWT, ask
once, and hand back only what the quarantine lets through. -/
namespace Custodly.Github
open Library.Strings Custodly.Core Host

structure Claims where
  iat : Int
  exp : Int
  iss : Text
  deriving DecidableEq, Repr

/-- What the crate for JSON web tokens computes. -/
structure Jwt (EncodingKey : Type) where
  fromRsaPem : Text → Except Text EncodingKey
  /-- Signed with RS256. -/
  encode : Claims → EncodingKey → Except Text Text

def sampleJwt : Jwt Unit where
  fromRsaPem _ := .ok ()
  encode claims _ := .ok claims.iss

variable {T EncodingKey : Type}

def InstallationTokenResponse.ofBody (body : AccessTokenBody T) : InstallationTokenResponse T where
  token := body.token
  expiresAt := body.expiresAt
  permissions := body.permissions.getD ∅

/-- What `mint_installation_token` makes of the reply. -/
def readAccessToken (grant : RequestedGrant) :
    HttpReply (AccessTokenBody T) → Except GithubError (MintedToken T)
  | .error cause => .error (.request cause)
  | .ok response =>
      if response.isSuccess then
        match response.json with
        | .error cause => .error (.request cause)
        | .ok body =>
            let parsed := InstallationTokenResponse.ofBody body
            match verifyNoScopeCreep grant.permissions parsed.permissions with
            | .error error => .error error
            | .ok () => .ok (MintedToken.fromResponse parsed)
      else .error (.api response.status response.textOrDefault)

def accessTokenUrl (grant : RequestedGrant) : Text :=
  "https://api.github.com/app/installations/".toList ++
    (toString grant.installationId).toList ++ "/access_tokens".toList

def accessTokenHeaders : List (Text × Text) :=
  [("Accept".toList, "application/vnd.github+json".toList),
    ("X-GitHub-Api-Version".toList, "2022-11-28".toList),
    ("User-Agent".toList, "custodly".toList)]

variable [DateTimeUtc T]

/-- `iat` is backdated by a minute, `exp` is nine minutes ahead. -/
def claims (app : AppCredentials) (now : T) : Claims where
  iat := DateTimeUtc.timestamp now - 60
  exp := DateTimeUtc.timestamp now + 9 * 60
  iss := (toString app.appId).toList

def mintJwt (crate : Jwt EncodingKey) (app : AppCredentials) (now : T) :
    Except GithubError Text :=
  match crate.fromRsaPem app.privateKeyPem with
  | .error cause => .error (.jwt cause)
  | .ok key => (crate.encode (claims app now) key).mapError .jwt

def mintInstallationToken (crate : Jwt EncodingKey) (app : AppCredentials)
    (grant : RequestedGrant) : Action T GithubError (MintedToken T) := do
  let now ← call .now
  let jwt ← attempt (mintJwt crate app now)
  let reply ← call (.accessToken
    ⟨accessTokenUrl grant, jwt, accessTokenHeaders, grant.repositoryIds, grant.permissions⟩)
  attempt (readAccessToken grant reply)

omit [DateTimeUtc T] in
theorem readAccessToken_eq_ok_iff {grant : RequestedGrant} {reply : HttpReply (AccessTokenBody T)}
    {minted : MintedToken T} :
    readAccessToken grant reply = .ok minted ↔
      ∃ response body, reply = .ok response ∧ response.isSuccess ∧ response.json = .ok body ∧
        verifyNoScopeCreep grant.permissions (body.permissions.getD ∅) = .ok () ∧
        minted = .fromResponse (.ofBody body) := by
  constructor
  · intro h
    unfold readAccessToken at h
    cases reply with
    | error cause => cases h
    | ok response =>
      by_cases hsuccess : response.isSuccess
      · cases hjson : response.json with
        | error cause => simp [hsuccess, hjson] at h
        | ok body =>
          cases hverified : verifyNoScopeCreep grant.permissions (body.permissions.getD ∅) with
          | error error =>
            simp [hsuccess, hjson, InstallationTokenResponse.ofBody, hverified] at h
          | ok _ =>
            simp only [hsuccess, if_true, hjson, InstallationTokenResponse.ofBody, hverified,
              Except.ok.injEq] at h
            exact ⟨response, body, rfl, hsuccess, hjson, hverified, h.symm⟩
      · simp [hsuccess] at h
  · rintro ⟨response, body, rfl, hsuccess, hjson, hverified, rfl⟩
    simp [readAccessToken, hsuccess, hjson, InstallationTokenResponse.ofBody, hverified]

end Custodly.Github
