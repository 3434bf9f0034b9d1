import Custodly.Core.Tier

/-! `policy()` (`custodly-core/src/policy.rs`) and what its answer says about the scope
text it was asked about. -/
namespace Custodly.Core
open Library.Strings

structure PolicyResponse where
  tier : Nat
  requires : List Text
  deriving DecidableEq, Repr

def github : Text := "github".toList
def onboardingComplete : Text := "onboarding_complete".toList
def gateHumanApproval : Text := "gate:human_approval".toList

/-- Provider dispatch: only the pilot provider has an adapter. -/
def assess (provider scope : Text) : Option ScopeAssessment :=
  if provider = github then assessGithubScope scope else none

def evaluate (provider scope : Text) : PolicyResponse :=
  let assessment := assess provider scope
  let tier := Tier.score assessment
  { tier := tier.asU8
    requires := (if assessment.isNone then [onboardingComplete] else []) ++
      if tier = .tier2 then [gateHumanApproval] else [] }

theorem assessGithubScope_eq_some_iff {scope : Text} {a : ScopeAssessment} :
    assessGithubScope scope = some a ↔ ScopeIn listedResources scope ∧
      a = assessPermissions ((scope.splitOn ',').filterMap permission) := by
  have hgrammar : (∀ pair ∈ scope.splitOn ',', (permission pair).isSome) ↔
      ScopeIn listedResources scope :=
    forall₂_congr fun _ _ => permission_isSome_iff
  rw [assessGithubScope_eq]
  by_cases h : ScopeIn listedResources scope
  · rw [if_pos (hgrammar.2 h), Option.some.injEq, eq_comm]
    exact (and_iff_right h).symm
  · rw [if_neg (mt hgrammar.1 h)]
    simp [h]

theorem mem_permissions_iff {scope : Text} (h : ScopeIn listedResources scope) (p : Text × Text) :
    p ∈ (scope.splitOn ',').filterMap permission ↔
      ∃ pair ∈ scope.splitOn ',', segment pair = some p := by
  rw [List.mem_filterMap]
  refine ⟨fun ⟨pair, hmem, hp⟩ => ⟨pair, hmem, (permission_eq_some_iff.1 hp).1⟩,
    fun ⟨pair, hmem, hp⟩ => ⟨pair, hmem, permission_eq_some_iff.2 ⟨hp, ?_⟩⟩⟩
  obtain ⟨resource, hresource, level, hlevel, hsegment⟩ := h pair hmem
  rw [hp, Option.some.injEq] at hsegment
  rw [hsegment]
  exact ⟨hresource, hlevel⟩

theorem readOnly_iff {scope : Text} (h : ScopeIn listedResources scope) :
    (assessPermissions ((scope.splitOn ',').filterMap permission)).readOnly ↔
      ¬ HasLevel writeLevel scope := by
  simp only [assessPermissions, List.all_eq_true, mem_permissions_iff h, decide_eq_true_eq]
  constructor
  · rintro hall ⟨pair, hmem, resource, hpair⟩
    exact hall _ ⟨pair, hmem, hpair⟩ rfl
  · rintro hnone p ⟨pair, hmem, hpair⟩ hlevel
    apply hnone
    refine ⟨pair, hmem, p.1, ?_⟩
    rw [hpair, ← hlevel]

theorem any_permission_iff {scope : Text} (h : ScopeIn listedResources scope)
    (resources : List Text) :
    ((scope.splitOn ',').filterMap permission).any (·.1 ∈ resources) ↔
      ∃ resource ∈ resources, HasResource resource scope := by
  simp only [List.any_eq_true, mem_permissions_iff h, decide_eq_true_eq]
  refine ⟨fun ⟨p, ⟨pair, hmem, hpair⟩, hp⟩ => ⟨p.1, hp, pair, hmem, p.2, hpair⟩,
    fun ⟨resource, hr, pair, hmem, level, hpair⟩ => ⟨(resource, level), ⟨pair, hmem, hpair⟩, hr⟩⟩

theorem evaluate_tier_le_one_iff (provider scope : Text) :
    (evaluate provider scope).tier ≤ 1 ↔
      provider = github ∧ ScopeIn ordinaryResources scope := by
  change Tier.score (assess provider scope) ≤ .tier1 ↔ _
  unfold assess
  by_cases h : provider = github
  · rw [if_pos h, score_le_iff]
    simp only [h, true_and, ScopeIn, segmentTier_le_tier1_iff]
  · rw [if_neg h]
    simp [h, Tier.score, Tier.le_iff, Tier.asU8]

theorem evaluate_tier_eq_zero_iff (provider scope : Text) :
    (evaluate provider scope).tier = 0 ↔
      provider = github ∧ ScopeIn ordinaryResources scope ∧ ¬ HasLevel writeLevel scope := by
  rw [← Nat.le_zero]
  change Tier.score (assess provider scope) ≤ .tier0 ↔ _
  unfold assess
  by_cases h : provider = github
  · rw [if_pos h, score_le_iff]
    simp only [h, true_and, segmentTier_le_tier0_iff]
    refine ⟨fun hall => ⟨fun pair hmem => ?_, fun ⟨pair, hmem, resource, hpair⟩ => ?_⟩,
      fun ⟨hin, hnone⟩ pair hmem => ?_⟩
    · obtain ⟨resource, hresource, hpair⟩ := hall pair hmem
      exact ⟨resource, hresource, readLevel, by simp [levels], hpair⟩
    · obtain ⟨resource', -, hpair'⟩ := hall pair hmem
      rw [hpair', Option.some.injEq, Prod.mk.injEq] at hpair
      exact readLevel_ne_writeLevel hpair.2
    · obtain ⟨resource, hresource, level, hlevel, hpair⟩ := hin pair hmem
      rcases List.mem_pair.1 hlevel with rfl | rfl
      · exact ⟨resource, hresource, hpair⟩
      · exact absurd ⟨pair, hmem, resource, hpair⟩ hnone
  · rw [if_neg h]
    simp [h, Tier.score, Tier.le_iff, Tier.asU8]

theorem assess_isNone_iff (provider scope : Text) :
    (assess provider scope).isNone ↔ ¬ (provider = github ∧ ScopeIn listedResources scope) := by
  unfold assess
  by_cases h : provider = github
  · rw [if_pos h, Option.isNone_iff_eq_none, Option.eq_none_iff_forall_ne_some]
    simp only [h, true_and, ne_eq, assessGithubScope_eq_some_iff, not_and]
    exact ⟨fun hall hin => hall _ hin rfl, fun hout a hin => absurd hin hout⟩
  · simp [h]

theorem mem_requires_onboarding_iff (provider scope : Text) :
    onboardingComplete ∈ (evaluate provider scope).requires ↔
      (assess provider scope).isNone := by
  have hne : onboardingComplete ≠ gateHumanApproval := by decide
  unfold evaluate
  cases assess provider scope <;> simp [hne]

theorem mem_requires_gate_iff (provider scope : Text) :
    gateHumanApproval ∈ (evaluate provider scope).requires ↔
      (evaluate provider scope).tier = 2 := by
  have hne : gateHumanApproval ≠ onboardingComplete := by decide
  unfold evaluate
  by_cases h : Tier.score (assess provider scope) = .tier2
  · simp [h, Tier.asU8]
  · have hu8 : (Tier.score (assess provider scope)).asU8 ≠ 2 := fun heq =>
      h (Tier.asU8_injective heq)
    simp [h, hu8, hne]

/-- The scope parser accepts exactly its grammar, every axis of its answer is what the
segments say, and `policy()` answers accordingly. -/
theorem scope_parser_exact (scope : Text) :
    ((assessGithubScope scope).isSome ↔ ScopeIn listedResources scope) ∧
    (∀ a, assessGithubScope scope = some a →
      (a.readOnly ↔ ¬ HasLevel writeLevel scope) ∧
      (a.reversibility = .irreversible ↔
        ∃ resource ∈ sensitiveResources, HasResource resource scope) ∧
      (a.blastRadius = .shared ↔
        ∃ resource ∈ sensitiveResources, HasResource resource scope) ∧
      (a.financialExposure = .canMoveMoney ↔ HasResource billing scope)) ∧
    ∀ provider,
      ((evaluate provider scope).tier ≤ 1 ↔
        provider = github ∧ ScopeIn ordinaryResources scope) ∧
      ((evaluate provider scope).tier = 0 ↔
        provider = github ∧ ScopeIn ordinaryResources scope ∧ ¬ HasLevel writeLevel scope) ∧
      (onboardingComplete ∈ (evaluate provider scope).requires ↔
        ¬ (provider = github ∧ ScopeIn listedResources scope)) ∧
      (gateHumanApproval ∈ (evaluate provider scope).requires ↔
        (evaluate provider scope).tier = 2) := by
  refine ⟨?_, fun a h => ?_, fun provider => ⟨evaluate_tier_le_one_iff _ _,
    evaluate_tier_eq_zero_iff _ _, ?_, mem_requires_gate_iff _ _⟩⟩
  · rw [Option.isSome_iff_exists]
    simp [assessGithubScope_eq_some_iff]
  · obtain ⟨hin, rfl⟩ := assessGithubScope_eq_some_iff.1 h
    have hsensitive := any_permission_iff hin sensitiveResources
    have hbilling := any_permission_iff hin [billing]
    refine ⟨readOnly_iff hin, ?_, ?_, ?_⟩
    · rw [← hsensitive]
      simp [assessPermissions]
    · rw [← hsensitive]
      simp [assessPermissions]
    · simp only [List.mem_singleton, exists_eq_left] at hbilling
      rw [← hbilling]
      simp [assessPermissions]
  · rw [mem_requires_onboarding_iff, assess_isNone_iff]

end Custodly.Core
