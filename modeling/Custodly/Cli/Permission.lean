import Custodly.Core.Entry
import Custodly.Github.Grant

/-! `--permission` values (`custodly-cli/src/main.rs`), and what their grammar does for the
tier of the token minted from them: nothing is lost by joining the granted map into a
text, and the answer of `policy()` bounds the tier wherever the levels asked for are
spelled as the quarantine reads them. -/
namespace Custodly.Cli
open Library.Strings Custodly.Core Github

inductive PermissionError where
  | expected (raw : Text)
  deriving DecidableEq, Repr

/-- `debug` is the `Debug` form of a string. -/
def PermissionError.message (debug : Text → Text) : PermissionError → Text
  | .expected raw => "expected resource:level, got ".toList ++ debug raw

def parsePermission (raw : Text) : Except PermissionError (Text × Text) :=
  match splitOnce ':' raw with
  | none => .error (.expected raw)
  | some (resource, level) =>
      if resource = [] ∨ level = [] then .error (.expected raw)
      else .ok (resource, level)

def FromCli (requested : Permissions) : Prop :=
  ∀ resource level, requested[resource]? = some level →
    ∃ raw, parsePermission raw = .ok (resource, level)

theorem parsePermission_eq_ok_iff {raw resource level : Text} :
    parsePermission raw = .ok (resource, level) ↔
      raw = resource ++ ':' :: level ∧ ':' ∉ resource ∧ resource ≠ [] ∧ level ≠ [] := by
  unfold parsePermission
  cases hsplit : splitOnce ':' raw with
  | none =>
    refine ⟨fun h => (nomatch h), fun ⟨h, hcolon, _⟩ => ?_⟩
    rw [h, splitOnce_append _ hcolon] at hsplit
    cases hsplit
  | some parts =>
    obtain ⟨first, second⟩ := parts
    have hparts := splitOnce_eq_some_iff.1 hsplit
    by_cases hempty : first = [] ∨ second = []
    · simp only [hempty, if_true]
      refine ⟨fun h => (nomatch h), fun ⟨h, hcolon, hresource, hlevel⟩ => ?_⟩
      rw [h, splitOnce_append _ hcolon, Option.some.injEq, Prod.mk.injEq] at hsplit
      rw [← hsplit.1, ← hsplit.2] at hempty
      exact (hempty.elim hresource hlevel).elim
    · simp only [hempty, if_false, Except.ok.injEq]
      refine ⟨fun h => ?_, fun ⟨h, hcolon, _⟩ => ?_⟩
      · cases h
        rw [not_or] at hempty
        exact ⟨hparts.1, hparts.2, hempty⟩
      · rw [h, splitOnce_append _ hcolon, Option.some.injEq] at hsplit
        exact hsplit.symm

theorem FromCli.colon_not_mem {requested : Permissions} (h : FromCli requested)
    {resource level : Text} (hmem : requested[resource]? = some level) : ':' ∉ resource := by
  obtain ⟨raw, hraw⟩ := h resource level hmem
  exact (parsePermission_eq_ok_iff.1 hraw).2.1

theorem FromCli.ofList {permissions : List (Text × Text)}
    (h : ∀ p ∈ permissions, ∃ raw, parsePermission raw = .ok p) :
    FromCli (.ofList permissions) := by
  induction permissions using List.reverseRecOn with
  | nil =>
    intro resource level hmem
    simp at hmem
  | append_singleton front last ih =>
    have hfront := ih fun p hp => h p (List.mem_append_left _ hp)
    obtain ⟨raw, hraw⟩ := h last (by simp)
    intro resource level hmem
    rw [Std.ExtTreeMap.ofList_eq_foldl, List.foldl_append, ← Std.ExtTreeMap.ofList_eq_foldl]
      at hmem
    simp only [List.foldl_cons, List.foldl_nil, Std.ExtTreeMap.getElem?_insert] at hmem
    by_cases hkey : compare last.1 resource = .eq
    · rw [if_pos hkey, Option.some.injEq] at hmem
      rw [Std.LawfulEqCmp.compare_eq_iff_eq] at hkey
      exact ⟨raw, by rw [hraw, ← hkey, ← hmem]⟩
    · rw [if_neg hkey] at hmem
      exact hfront resource level hmem

theorem colon_not_mem_granted {requested : Permissions} {entry : Text × Text}
    (hrequested : FromCli requested) (h : Covered requested entry) : ':' ∉ entry.1 := by
  rcases h with ⟨h, -⟩ | ⟨level, h, -⟩
  · rw [h]
    decide
  · exact hrequested.colon_not_mem h

variable {T : Type}

theorem tier_fromResponse {requested : Permissions} {resp : InstallationTokenResponse T}
    (hrequested : FromCli requested)
    (hverified : verifyNoScopeCreep requested resp.permissions = .ok ()) :
    (MintedToken.fromResponse resp).tier = grantedTier resp.permissions := by
  have hcovered := verifyNoScopeCreep_eq_ok_iff.1 hverified
  unfold MintedToken.fromResponse grantedTier
  by_cases hempty : resp.permissions.isEmpty
  · rw [if_pos hempty]
    rw [← Std.ExtTreeMap.isEmpty_toList, List.isEmpty_iff] at hempty
    simp only [scopeText, hempty]
    decide
  · rw [if_neg hempty]
    have hne : resp.permissions.toList ≠ [] := by
      rwa [← Std.ExtTreeMap.isEmpty_toList, List.isEmpty_iff] at hempty
    simp only [score_scopeText hne]
    congr 1
    apply List.map_congr_left
    intro entry hmem
    exact textTier_eq_entryTier (colon_not_mem_granted hrequested (hcovered entry hmem))
      (hcovered entry hmem).level_mem

/-- The tier of a minted token is the tier of what was granted, entry by entry. -/
theorem tier_entry_by_entry (requested : Permissions) (resp : InstallationTokenResponse T)
    (hrequested : FromCli requested)
    (hverified : verifyNoScopeCreep requested resp.permissions = .ok ()) :
    (MintedToken.fromResponse resp).tier = grantedTier resp.permissions ∧
    ∀ entry ∈ resp.permissions.toList, entry.2 ∈ levels ∧
      (trim entry.1 ∉ listedResources → (MintedToken.fromResponse resp).tier = .tier2) := by
  have htier := tier_fromResponse hrequested hverified
  refine ⟨htier, fun entry hmem => ⟨?_, fun hlisted => ?_⟩⟩
  · exact (verifyNoScopeCreep_eq_ok_iff.1 hverified entry hmem).level_mem
  · have hnonempty : ¬ resp.permissions.isEmpty := by
      rw [← Std.ExtTreeMap.isEmpty_toList, List.isEmpty_iff]
      exact List.ne_nil_of_mem hmem
    have hentry : entryTier entry = .tier2 := by simp [entryTier, hlisted]
    rw [htier, grantedTier, if_neg hnonempty]
    exact worst_eq_tier2 (List.mem_map.2 ⟨entry, hmem, hentry⟩)

def commaRequest : Permissions := .ofList [("contents,issues".toList, readLevel)]

def commaReply : InstallationTokenResponse SampleInstant where
  token := "ghs_a".toList
  expiresAt := .one
  permissions := commaRequest

theorem fromCli_commaRequest : FromCli commaRequest := by
  apply FromCli.ofList
  simp only [List.mem_singleton, forall_eq]
  exact ⟨"contents,issues:read".toList, by decide⟩

theorem tier_entry_by_entry_comma :
    (MintedToken.fromResponse commaReply).tier = grantedTier commaReply.permissions ∧
    ∀ entry ∈ commaReply.permissions.toList, entry.2 ∈ levels ∧
      (trim entry.1 ∉ listedResources →
        (MintedToken.fromResponse commaReply).tier = .tier2) :=
  tier_entry_by_entry commaRequest commaReply fromCli_commaRequest (by decide)

/-- The least the quarantine can let through without lowering the tier of a scope text:
ordinary resources only, none of them at `write`. -/
def ReadOnlyOrdinary (scope : Text) : Prop :=
  ScopeIn ordinaryResources scope ∧ ¬ HasLevel writeLevel scope

theorem evaluate_github (scope : Text) :
    (evaluate github scope).tier = (Tier.score (assessGithubScope scope)).asU8 := by
  simp [evaluate, assess]

theorem textTier_le_announced {requested : Permissions} {entry : Text × Text}
    (h : requested[entry.1]? = some entry.2) :
    textTier entry ≤ Tier.score (assessGithubScope (scopeText requested)) := by
  have hmem : entry ∈ requested.toList :=
    Std.ExtTreeMap.mem_toList_iff_getElem?_eq_some.2 h
  rw [score_scopeText (List.ne_nil_of_mem hmem)]
  exact le_worst (List.mem_map.2 ⟨entry, hmem, rfl⟩)

theorem entryTier_le_announced {requested : Permissions} {entry : Text × Text}
    (hrequested : FromCli requested) (hcovered : Covered requested entry)
    (h : entry.2 = writeLevel → (∀ level, requested[entry.1]? = some level → level ∈ levels) ∨
      ¬ ReadOnlyOrdinary (scopeText requested)) :
    entryTier entry ≤ Tier.score (assessGithubScope (scopeText requested)) := by
  rcases hcovered with ⟨hbaseline, hread⟩ | ⟨asked, hasked, hlevel⟩
  · have hzero : entryTier entry = .tier0 := by
      rw [entryTier_of_ordinary (by rw [hbaseline]; decide), if_pos hread]
    rw [hzero]
    exact Tier.tier0_le _
  · have hcolon := hrequested.colon_not_mem hasked
    have hbound := @textTier_le_announced _ (entry.1, asked) hasked
    by_cases hone : Tier.score (assessGithubScope (scopeText requested)) ≤ .tier1
    · have hordinary : trim entry.1 ∈ ordinaryResources :=
        @ordinary_of_textTier_le (entry.1, asked) hcolon (le_trans hbound hone)
      rw [entryTier_of_ordinary hordinary]
      rcases hlevel with hread | ⟨hwrite, hnotRead⟩
      · rw [if_pos hread]
        exact Tier.tier0_le _
      · rw [hwrite, if_neg writeLevel_ne_readLevel]
        rcases h hwrite with hexact | hannounced
        · -- the level asked for is in the vocabulary, so its own text scores Tier 1
          have hown := @textTier_eq_entryTier (entry.1, asked) hcolon (hexact asked hasked)
          rw [hown, @entryTier_of_ordinary (entry.1, asked) hordinary, if_neg hnotRead] at hbound
          exact hbound
        · by_contra hlt
          have hzero : (evaluate github (scopeText requested)).tier = 0 := by
            rw [evaluate_github]
            have := Tier.le_iff.not.1 hlt
            simp only [Tier.asU8] at this ⊢
            omega
          exact hannounced ((evaluate_tier_eq_zero_iff _ _).1 hzero).2
    · have htop : Tier.score (assessGithubScope (scopeText requested)) = .tier2 := by
        cases hscore : Tier.score (assessGithubScope (scopeText requested)) with
        | tier2 => rfl
        | tier0 => exact absurd (le_of_eq_of_le hscore (by decide)) hone
        | tier1 => exact absurd (le_of_eq hscore) hone
      rw [htop]
      exact Tier.le_tier2 _

/-- The tier announced for a request bounds the tier of what is minted, just when no
resource asked for at some other spelling of a level comes back at `write`, or the text of
the request does not read as ordinary resources at `read` only. -/
theorem tier_le_announced_iff (requested : Permissions) (resp : InstallationTokenResponse T)
    (hrequested : FromCli requested) (hgranted : resp.permissions.isEmpty = false)
    (hverified : verifyNoScopeCreep requested resp.permissions = .ok ()) :
    (MintedToken.fromResponse resp).tier.asU8 ≤ (evaluate github (scopeText requested)).tier ↔
      (∀ resource level : Text, resp.permissions[resource]? = some writeLevel →
        requested[resource]? = some level → level ∈ levels) ∨
      ¬ ReadOnlyOrdinary (scopeText requested) := by
  have hcovered := verifyNoScopeCreep_eq_ok_iff.1 hverified
  have hgrantedTier : grantedTier resp.permissions =
      worst (resp.permissions.toList.map entryTier) := by simp [grantedTier, hgranted]
  rw [evaluate_github, ← Tier.le_iff, tier_fromResponse hrequested hverified, hgrantedTier,
    worst_le_iff, List.forall_mem_map]
  refine ⟨fun hall => ?_, fun hcondition entry hmem => ?_⟩
  · by_contra hfails
    simp only [not_or, not_forall, not_not] at hfails
    obtain ⟨⟨resource, level, hwrite, hasked, hlevel⟩, hannounced⟩ := hfails
    have hzero : Tier.score (assessGithubScope (scopeText requested)) ≤ .tier0 := by
      rw [Tier.le_iff, ← evaluate_github, (evaluate_tier_eq_zero_iff _ _).2 ⟨rfl, hannounced⟩]
      exact Nat.zero_le _
    have hentry := hall (resource, writeLevel)
      (Std.ExtTreeMap.mem_toList_iff_getElem?_eq_some.2 hwrite)
    have hordinary : trim resource ∈ ordinaryResources :=
      @ordinary_of_textTier_le (resource, level) (hrequested.colon_not_mem hasked)
        (le_trans (le_trans (textTier_le_announced hasked) hzero) (by decide))
    rw [entryTier_of_ordinary hordinary, if_neg writeLevel_ne_readLevel] at hentry
    exact absurd (le_trans hentry hzero) (by decide)
  · refine entryTier_le_announced hrequested (hcovered entry hmem) fun hwrite => ?_
    refine hcondition.imp_left fun hexact (level : Text) hasked =>
      hexact entry.1 level ?_ hasked
    rw [← hwrite]
    exact Std.ExtTreeMap.mem_toList_iff_getElem?_eq_some.1 hmem

/-- `--permission "contents: read"`: the level asked for is ` read`, which `policy()` trims
and the quarantine does not recognise. -/
def spacedRequest : Permissions := .ofList [("contents".toList, " read".toList)]

def writeReply : InstallationTokenResponse SampleInstant where
  token := "ghs_a".toList
  expiresAt := .one
  permissions := .ofList [("contents".toList, writeLevel)]

theorem fromCli_spacedRequest : FromCli spacedRequest := by
  apply FromCli.ofList
  simp only [List.mem_singleton, forall_eq]
  exact ⟨"contents: read".toList, by decide⟩

theorem tier_le_announced_iff_spaced :
    (MintedToken.fromResponse writeReply).tier.asU8 ≤
        (evaluate github (scopeText spacedRequest)).tier ↔
      (∀ resource level : Text, writeReply.permissions[resource]? = some writeLevel →
        spacedRequest[resource]? = some level → level ∈ levels) ∨
      ¬ ReadOnlyOrdinary (scopeText spacedRequest) :=
  tier_le_announced_iff spacedRequest writeReply fromCli_spacedRequest (by decide) (by decide)

theorem not_tier_le_announced :
    ¬ ∀ (requested : Permissions) (resp : InstallationTokenResponse SampleInstant),
      requested.isEmpty = false → FromCli requested → resp.permissions.isEmpty = false →
      verifyNoScopeCreep requested resp.permissions = .ok () →
      (MintedToken.fromResponse resp).tier.asU8 ≤
        (evaluate github (scopeText requested)).tier := by
  intro h
  have hcreep : verifyNoScopeCreep spacedRequest writeReply.permissions = .ok () := by decide
  have := h spacedRequest writeReply (by decide) fromCli_spacedRequest (by decide) hcreep
  exact absurd this (by decide)

end Custodly.Cli
