import Custodly.Core.Wire
import Custodly.Github.App

/-! The bodies of the exchange with GitHub as JSON (`custodly-github/src/app.rs`): what a request
for a token asks for, and which replies are read as which grant. -/
namespace Custodly.Github
open Library Library.Strings Custodly.Core Host

/-- `repository_ids` is left out where every repository is asked for. -/
def requestMembers (repositoryIds : Option (List Nat)) (permissions : Permissions) :
    List (Text × Json) :=
  Json.asMember "repository_ids".toList (repositoryIds.map fun ids => .array (ids.map writeNat)) ++
    [("permissions".toList, Json.writeMap permissions)]

def requestFields : List Text := ["repository_ids".toList, "permissions".toList]

def readAsked (json : Json) : Option (Option (List Nat) × Permissions) := do
  match ← json.fields requestFields with
  | [repositoryIds, some permissions] =>
    let repositoryIds ← Json.optional (readArray readU64) repositoryIds
    let permissions ← permissions.readMap
    some (repositoryIds, permissions)
  | _ => none

theorem gives_requestMembers {repositoryIds : Option (List Nat)} {permissions : Permissions}
    {members : List (Text × Json)} (h : members.Perm (requestMembers repositoryIds permissions)) :
    (Json.object members).Gives requestFields
      [repositoryIds.map fun ids => .array (ids.map writeNat),
        some (Json.writeMap permissions)] := by
  have hnames : ∀ member ∈ requestMembers repositoryIds permissions, member.1 ∈ requestFields := by
    intro member hmember
    rcases List.mem_append.1 hmember with hids | hpermissions
    · rw [Json.name_of_mem_asMember hids]
      exact List.mem_cons_self
    · rw [List.mem_singleton.1 hpermissions]
      exact List.mem_cons_of_mem _ (List.mem_singleton_self _)
  rw [Json.Gives, List.filter_eq_self.2 fun member hmember => by
    simpa using hnames member (h.subset hmember)]
  exact h

theorem readAsked_requestMembers {repositoryIds : Option (List Nat)} {permissions : Permissions}
    (hids : ∀ ids ∈ repositoryIds, ∀ id ∈ ids, id < 2 ^ 64) {members : List (Text × Json)}
    (h : members.Perm (requestMembers repositoryIds permissions)) :
    readAsked (.object members) = some (repositoryIds, permissions) := by
  have hfields := (Json.fields_eq_some_iff (by decide) rfl).2 (gives_requestMembers h)
  rw [readAsked, hfields]
  cases repositoryIds with
  | none => simp [Json.optional, Json.readMap_writeMap]
  | some ids =>
    have hread : readArray readU64 (.array (ids.map writeNat)) = some ids :=
      readArray_map fun id hid => readBelow_writeNat (hids ids rfl id hid)
    simp [Json.optional, hread, Json.readMap_writeMap]

section Reply

variable {T : Type}

def InstallationTokenResponse.fieldNames : List Text :=
  ["token".toList, "expires_at".toList, "permissions".toList]

/-- The last field has a default, so an array may end before it. -/
def InstallationTokenResponse.fields : Json → Option (List (Option Json))
  | .array [token, expiresAt] => some [some token, some expiresAt, none]
  | json => json.fields fieldNames

def readPermissions : Option Json → Option Permissions
  | none => some ∅
  | some json => json.readMap

def InstallationTokenResponse.ofJson [DateTimeUtc T] (json : Json) :
    Option (InstallationTokenResponse T) := do
  match ← fields json with
  | [some token, some expiresAt, permissions] =>
    let token ← token.text
    let expiresAt ← readInstant expiresAt
    let permissions ← readPermissions permissions
    some ⟨token, expiresAt, permissions⟩
  | _ => none

def GivesResponse (given : List (Option Json)) : Json → Prop
  | .array elements => elements.map some = given ∨ elements.map some ++ [none] = given
  | json => json.Gives InstallationTokenResponse.fieldNames given

/-- A body that gives a token, its expiry and these levels, in the order of the text. -/
def Reports [DateTimeUtc T] (json : Json) (token : Text) (expiresAt : T)
    (levels : List (Text × Text)) : Prop :=
  ∃ expires permissions, DateTimeUtc.parse expires = some expiresAt ∧
    GivesResponse [some (.string token), some (.string expires), permissions] json ∧
    (permissions = none ∧ levels = [] ∨ permissions = some (Json.ofTexts levels))

theorem InstallationTokenResponse.fields_eq_some_iff {json : Json} {token expiresAt : Json}
    {permissions : Option Json} :
    fields json = some [some token, some expiresAt, permissions] ↔
      GivesResponse [some token, some expiresAt, permissions] json := by
  cases json with
  | array elements =>
    rw [GivesResponse]
    match elements with
    | [] => simp [fields, Json.fields, fieldNames]
    | [_] => simp [fields, Json.fields, fieldNames]
    | [_, _] => simp [fields]
    | [_, _, _] => simp [fields, Json.fields, fieldNames]
    | _ :: _ :: _ :: _ :: _ => simp [fields, Json.fields, fieldNames]
  | object members =>
    have hnodup : fieldNames.Nodup := by decide
    have h := @Json.fields_eq_some_iff fieldNames [some token, some expiresAt, permissions]
      (.object members) hnodup rfl
    simpa [fields, GivesResponse] using h
  | null | boolean _ | number _ | string _ => simp [fields, Json.fields, GivesResponse, Json.Gives]

theorem readPermissions_eq_some_iff {permissions : Option Json} {granted : Permissions} :
    readPermissions permissions = some granted ↔ ∃ levels, granted = .ofList levels ∧
      (permissions = none ∧ levels = [] ∨ permissions = some (Json.ofTexts levels)) := by
  cases permissions with
  | none =>
    rw [readPermissions, Option.some.injEq]
    constructor
    · rintro rfl
      exact ⟨[], Std.ExtTreeMap.ofList_nil.symm, .inl ⟨rfl, rfl⟩⟩
    · rintro ⟨levels, rfl, ⟨-, rfl⟩ | hnone⟩
      · exact Std.ExtTreeMap.ofList_nil.symm
      · cases hnone
  | some json =>
    rw [readPermissions, Json.readMap_eq_some_iff]
    simp [and_comm]

theorem InstallationTokenResponse.ofJson_eq_some_iff [DateTimeUtc T] {json : Json}
    {response : InstallationTokenResponse T} :
    ofJson json = some response ↔ ∃ levels,
      Reports json response.token response.expiresAt levels ∧
        response.permissions = .ofList levels := by
  rw [ofJson, Option.bind_eq_bind, Option.bind_eq_some_iff]
  constructor
  · rintro ⟨given, hfields, hread⟩
    split at hread
    · rename_i token expiresAt permissions
      simp only [Option.bind_eq_bind, Option.bind_eq_some_iff, Option.some.injEq] at hread
      obtain ⟨token, htoken, expiresAt, hexpiresAt, granted, hgranted, rfl⟩ := hread
      obtain ⟨expires, hexpires, hparse⟩ := Option.bind_eq_some_iff.1 hexpiresAt
      obtain ⟨levels, hlevels, hpermissions⟩ := readPermissions_eq_some_iff.1 hgranted
      rw [Json.text_eq_some_iff] at htoken hexpires
      subst htoken hexpires
      exact ⟨levels, ⟨expires, permissions, hparse, fields_eq_some_iff.1 hfields, hpermissions⟩,
        hlevels⟩
    · cases hread
  · rintro ⟨levels, ⟨expires, permissions, hparse, hgives, hpermissions⟩, hlevels⟩
    refine ⟨_, fields_eq_some_iff.2 hgives, ?_⟩
    have hgranted := readPermissions_eq_some_iff.2 ⟨levels, hlevels, hpermissions⟩
    simp [Json.text, readInstant, hparse, hgranted]

/-- The body of a response is this text, read as the type the crate reads it as. -/
def ReadsAs [DateTimeUtc T] (json : Json) (response : HttpResponse (AccessTokenBody T)) : Prop :=
  response.json.toOption.map InstallationTokenResponse.ofBody =
    InstallationTokenResponse.ofJson json

def lastLevel (levels : List (Text × Text)) (resource : Text) : Option Text :=
  levels.reverse.lookup resource

theorem getElem?_ofList_eq_lastLevel (levels : List (Text × Text)) (resource : Text) :
    (Std.ExtTreeMap.ofList levels : Permissions)[resource]? = lastLevel levels resource :=
  Json.getElem?_ofList_eq_lookup levels resource

theorem covered_iff_of_levels {requested : Permissions} {levels : List (Text × Text)} :
    (∀ entry ∈ (Std.ExtTreeMap.ofList levels : Permissions).toList, Covered requested entry) ↔
      ∀ resource level, lastLevel levels resource = some level →
        Covered requested (resource, level) := by
  simp only [Prod.forall, Std.ExtTreeMap.mem_toList_iff_getElem?_eq_some,
    getElem?_ofList_eq_lastLevel]

/-- A token is handed back just where the body reports it and the level that each resource is
given last is covered by the request. -/
theorem readAccessToken_json_iff [DateTimeUtc T] {json : Json} {grant : RequestedGrant}
    {response : HttpResponse (AccessTokenBody T)} {minted : MintedToken T}
    (hread : ReadsAs json response) :
    readAccessToken grant (.ok response) = .ok minted ↔ response.isSuccess ∧
      ∃ token expiresAt levels, Reports json token expiresAt levels ∧
        (∀ resource level, lastLevel levels resource = some level →
          Covered grant.permissions (resource, level)) ∧
        minted = .fromResponse ⟨token, expiresAt, .ofList levels⟩ := by
  rw [readAccessToken_eq_ok_iff]
  constructor
  · rintro ⟨_, body, hresponse, hsuccess, hjson, hverified, rfl⟩
    obtain rfl := Except.ok.inj hresponse
    have hbody : InstallationTokenResponse.ofJson json = some (.ofBody body) := by
      rw [← hread, hjson]
      rfl
    obtain ⟨levels, hreports, hlevels⟩ := InstallationTokenResponse.ofJson_eq_some_iff.1 hbody
    change body.permissions.getD ∅ = _ at hlevels
    rw [hlevels, verifyNoScopeCreep_eq_ok_iff, covered_iff_of_levels] at hverified
    refine ⟨hsuccess, _, _, levels, hreports, hverified, ?_⟩
    rw [← hlevels]
    rfl
  · rintro ⟨hsuccess, token, expiresAt, levels, hreports, hcovered, rfl⟩
    have hbody : InstallationTokenResponse.ofJson json =
        some ⟨token, expiresAt, .ofList levels⟩ :=
      InstallationTokenResponse.ofJson_eq_some_iff.2 ⟨levels, hreports, rfl⟩
    rw [← hread, Option.map_eq_some_iff] at hbody
    obtain ⟨body, hbody, hparsed⟩ := hbody
    have hjson : response.json = .ok body := by
      cases hfound : response.json with
      | error cause =>
        rw [hfound] at hbody
        cases hbody
      | ok found =>
        rw [hfound] at hbody
        rw [Option.some.inj hbody]
    refine ⟨response, body, rfl, hsuccess, hjson, ?_, by rw [hparsed]⟩
    have hpermissions : body.permissions.getD ∅ = .ofList levels :=
      congrArg InstallationTokenResponse.permissions hparsed
    rw [hpermissions, verifyNoScopeCreep_eq_ok_iff, covered_iff_of_levels]
    exact hcovered

end Reply

end Custodly.Github
