import Custodly.Library.Strings
import Mathlib.Order.MinMax

/-! The risk-tiering model (`custodly-core/src/tier.rs`).  A scope text is read segment by
segment; the tier of the whole is the greatest tier of a segment, a segment outside the
grammar counting as Tier 2. -/
namespace Custodly.Core
open Library.Strings

inductive Reversibility where
  | reversible
  | irreversible
  deriving DecidableEq, Repr

inductive BlastRadius where
  | own
  | shared
  deriving DecidableEq, Repr

inductive FinancialExposure where
  | none
  | canMoveMoney
  deriving DecidableEq, Repr

structure ScopeAssessment where
  reversibility : Reversibility
  blastRadius : BlastRadius
  financialExposure : FinancialExposure
  readOnly : Bool
  deriving DecidableEq, Repr

inductive Tier where
  | tier0
  | tier1
  | tier2
  deriving DecidableEq, Repr

/-- The wire value of `boundary/v1`. -/
def Tier.asU8 : Tier → Nat
  | .tier0 => 0
  | .tier1 => 1
  | .tier2 => 2

theorem Tier.asU8_injective : Function.Injective Tier.asU8 := by
  intro a b h
  cases a <;> cases b <;> first | rfl | cases h

instance : LinearOrder Tier := LinearOrder.lift' Tier.asU8 Tier.asU8_injective

theorem Tier.le_iff {a b : Tier} : a ≤ b ↔ a.asU8 ≤ b.asU8 := Iff.rfl

theorem Tier.tier0_le (a : Tier) : Tier.tier0 ≤ a := by
  cases a <;> decide

theorem Tier.le_tier2 (a : Tier) : a ≤ Tier.tier2 := by
  cases a <;> decide

def Tier.score : Option ScopeAssessment → Tier
  | none => .tier2
  | some assessment =>
      if assessment.reversibility = .irreversible ∨ assessment.blastRadius = .shared ∨
          assessment.financialExposure = .canMoveMoney then .tier2
      else if assessment.readOnly then .tier0
      else .tier1

def readLevel : Text := "read".toList
def writeLevel : Text := "write".toList
def billing : Text := "billing".toList

@[simp] theorem readLevel_ne_writeLevel : readLevel ≠ writeLevel := by decide
@[simp] theorem writeLevel_ne_readLevel : writeLevel ≠ readLevel := by decide

def ordinaryResources : List Text :=
  ["repo", "pr", "issues", "contents", "metadata", "actions", "checks"].map String.toList

def sensitiveResources : List Text := ["admin", "billing", "secrets"].map String.toList

/-- One turn of the scoring loop, on the flags `read_only` and `trips_tier2`. -/
def assessPair (flags : Bool × Bool) (pair : Text) : Option (Bool × Bool) :=
  match splitOnce ':' (trim pair) with
  | none => none
  | some (left, right) =>
      let resource := trim left
      let level := trim right
      if resource = [] ∨ level = [] then none
      else
        let readOnly :=
          if level = readLevel then some flags.1
          else if level = writeLevel then some false
          else none
        match readOnly with
        | none => none
        | some readOnly =>
            if resource ∈ ordinaryResources then some (readOnly, flags.2)
            else if resource ∈ sensitiveResources then some (readOnly, true)
            else none

def assessGithubScope (scope : Text) : Option ScopeAssessment :=
  if trim scope = [] then none
  else
    match (scope.splitOn ',').foldlM assessPair (true, false) with
    | none => none
    | some (readOnly, tripsTier2) => some {
        reversibility := if tripsTier2 then .irreversible else .reversible
        blastRadius := if tripsTier2 then .shared else .own
        -- the raw text, not the parsed resources
        financialExposure :=
          if billing <:+: scope then .canMoveMoney else .none
        readOnly := readOnly }

def listedResources : List Text := ordinaryResources ++ sensitiveResources

def levels : List Text := [readLevel, writeLevel]

def segment (pair : Text) : Option (Text × Text) :=
  (splitOnce ':' (trim pair)).map fun parts => (trim parts.1, trim parts.2)

def permission (pair : Text) : Option (Text × Text) :=
  (segment pair).filter fun parts => parts.1 ∈ listedResources ∧ parts.2 ∈ levels

def SegmentIn (resources : List Text) (pair : Text) : Prop :=
  ∃ resource ∈ resources, ∃ level ∈ levels, segment pair = some (resource, level)

/-- Every comma-separated segment names one of the resources at a level of the grammar. -/
def ScopeIn (resources : List Text) (scope : Text) : Prop :=
  ∀ pair ∈ scope.splitOn ',', SegmentIn resources pair

def HasLevel (level : Text) (scope : Text) : Prop :=
  ∃ pair ∈ scope.splitOn ',', ∃ resource, segment pair = some (resource, level)

def HasResource (resource : Text) (scope : Text) : Prop :=
  ∃ pair ∈ scope.splitOn ',', ∃ level, segment pair = some (resource, level)

/-- The assessment of a list of permissions, without any text. -/
def assessPermissions (permissions : List (Text × Text)) : ScopeAssessment where
  reversibility :=
    if permissions.any (·.1 ∈ sensitiveResources) then .irreversible else .reversible
  blastRadius := if permissions.any (·.1 ∈ sensitiveResources) then .shared else .own
  financialExposure := if permissions.any (·.1 = billing) then .canMoveMoney else .none
  readOnly := permissions.all (·.2 ≠ writeLevel)

def permissionTier (p : Text × Text) : Tier :=
  if p.1 ∈ sensitiveResources then .tier2
  else if p.2 = writeLevel then .tier1
  else .tier0

def segmentTier (pair : Text) : Tier := (permission pair).elim .tier2 permissionTier

def worst (tiers : List Tier) : Tier := tiers.foldr max .tier0

theorem worst_le_iff {tiers : List Tier} {bound : Tier} :
    worst tiers ≤ bound ↔ ∀ tier ∈ tiers, tier ≤ bound := by
  induction tiers with
  | nil => simp [worst, Tier.tier0_le]
  | cons tier rest ih =>
    unfold worst at ih ⊢
    rw [List.foldr_cons, max_le_iff, ih, List.forall_mem_cons]

theorem le_worst {tiers : List Tier} {tier : Tier} (h : tier ∈ tiers) : tier ≤ worst tiers :=
  worst_le_iff.1 (le_refl _) tier h

theorem worst_append (first second : List Tier) :
    worst (first ++ second) = max (worst first) (worst second) := by
  apply le_antisymm
  · refine worst_le_iff.2 fun tier h => ?_
    rcases List.mem_append.1 h with h | h
    · exact le_max_of_le_left (le_worst h)
    · exact le_max_of_le_right (le_worst h)
  · apply max_le
    · exact worst_le_iff.2 fun tier h => le_worst (List.mem_append_left _ h)
    · exact worst_le_iff.2 fun tier h => le_worst (List.mem_append_right _ h)

theorem worst_eq_tier2 {tiers : List Tier} (h : Tier.tier2 ∈ tiers) : worst tiers = .tier2 :=
  le_antisymm (Tier.le_tier2 _) (le_worst h)

theorem permission_eq_some_iff {pair : Text} {p : Text × Text} :
    permission pair = some p ↔ segment pair = some p ∧ p.1 ∈ listedResources ∧ p.2 ∈ levels := by
  unfold permission
  rw [Option.filter_eq_some_iff, decide_eq_true_eq]

theorem permission_isSome_iff {pair : Text} :
    (permission pair).isSome ↔ SegmentIn listedResources pair := by
  rw [Option.isSome_iff_exists]
  simp only [permission_eq_some_iff, Prod.exists, SegmentIn]
  refine ⟨fun ⟨resource, level, h, hr, hl⟩ => ⟨resource, hr, level, hl, h⟩,
    fun ⟨resource, hr, level, hl, h⟩ => ⟨resource, level, h, hr, hl⟩⟩

theorem not_mem_sensitive_of_mem_ordinary :
    ∀ resource ∈ ordinaryResources, resource ∉ sensitiveResources := by decide

theorem assessPair_eq (flags : Bool × Bool) (pair : Text) :
    assessPair flags pair = (permission pair).map fun p =>
      (flags.1 && p.2 ≠ writeLevel, flags.2 || p.1 ∈ sensitiveResources) := by
  unfold assessPair permission segment
  cases splitOnce ':' (trim pair) with
  | none => rfl
  | some parts =>
    simp only [Option.map_some, Option.filter_some]
    generalize trim parts.1 = resource
    generalize trim parts.2 = level
    by_cases hempty : resource = [] ∨ level = []
    · have hout : ¬ (resource ∈ listedResources ∧ level ∈ levels) := by
        rintro ⟨hresource, hlevel⟩
        rcases hempty with rfl | rfl
        · exact absurd hresource (by decide)
        · exact absurd hlevel (by decide)
      simp [hempty, hout]
    · rw [if_neg hempty]
      have hlisted : resource ∈ listedResources ↔
          resource ∈ ordinaryResources ∨ resource ∈ sensitiveResources := List.mem_append
      have hlevels : level ∈ levels ↔ level = readLevel ∨ level = writeLevel := by
        simp [levels]
      by_cases hlevel : level ∈ levels
      · have hread : (if level = readLevel then some flags.1
            else if level = writeLevel then some false else none) =
            some (flags.1 && level ≠ writeLevel) := by
          rcases hlevels.1 hlevel with rfl | rfl <;> simp
        simp only [hread, hlevel, and_true, hlisted]
        by_cases hordinary : resource ∈ ordinaryResources
        · simp [hordinary, not_mem_sensitive_of_mem_ordinary resource hordinary]
        · by_cases hsensitive : resource ∈ sensitiveResources <;> simp [hordinary, hsensitive]
      · have hneither := hlevel
        rw [hlevels, not_or] at hneither
        simp [hlevel, hneither.1, hneither.2]

theorem foldlM_assessPair (flags : Bool × Bool) (pairs : List Text) :
    pairs.foldlM assessPair flags =
      if ∀ pair ∈ pairs, (permission pair).isSome then
        some (flags.1 && (pairs.filterMap permission).all (·.2 ≠ writeLevel),
          flags.2 || (pairs.filterMap permission).any (·.1 ∈ sensitiveResources))
      else none := by
  induction pairs generalizing flags with
  | nil => simp
  | cons pair rest ih =>
    rw [List.foldlM_cons, assessPair_eq]
    cases hpair : permission pair with
    | none => simp [hpair]
    | some p =>
      simp only [Option.map_some, Option.bind_eq_bind, Option.bind_some, ih, List.forall_mem_cons,
        hpair, Option.isSome_some, true_and, List.filterMap_cons]
      by_cases hrest : ∀ pair ∈ rest, (permission pair).isSome
      · rw [if_pos hrest, if_pos hrest]
        simp [Bool.and_assoc, Bool.or_assoc]
      · rw [if_neg hrest, if_neg hrest]

theorem infix_listed_iff : ∀ resource ∈ listedResources,
    billing <:+: resource ↔ resource = billing := by decide

theorem not_infix_level : ∀ level ∈ levels, ¬ billing <:+: level := by decide

theorem infix_segment_iff {pair : Text} {p : Text × Text} (h : permission pair = some p) :
    billing <:+: pair ↔ p.1 = billing := by
  obtain ⟨hsegment, hlisted⟩ := permission_eq_some_iff.1 h
  obtain ⟨parts, hsplit, rfl⟩ := Option.map_eq_some_iff.1 hsegment
  have hword : ∀ c ∈ billing, isWhitespace c = false := by
    have hall : (billing.all fun c => !isWhitespace c) = true := by decide
    simpa only [List.all_eq_true, Bool.not_eq_true'] using hall
  rw [← infix_listed_iff _ hlisted.1, ← infix_trim_iff hword, (splitOnce_eq_some_iff.1 hsplit).1,
    infix_append_cons_iff (by decide), infix_trim_iff hword, or_iff_left_iff_imp]
  intro hlevel
  exact absurd ((infix_trim_iff hword).2 hlevel) (not_infix_level _ hlisted.2)

/-- On an accepted text the raw search finds billing just when a permission names it. -/
theorem infix_scope_iff {scope : Text} (h : ∀ pair ∈ scope.splitOn ',', (permission pair).isSome) :
    billing <:+: scope ↔
      ((scope.splitOn ',').filterMap permission).any (·.1 = billing) := by
  have hcomma : ',' ∉ billing := by decide
  rw [infix_iff_exists_piece hcomma]
  simp only [List.any_eq_true, List.mem_filterMap, decide_eq_true_eq]
  refine ⟨fun ⟨pair, hmem, hinfix⟩ => ?_, fun ⟨p, ⟨pair, hmem, hp⟩, hbilling⟩ => ?_⟩
  · obtain ⟨p, hp⟩ := Option.isSome_iff_exists.1 (h pair hmem)
    exact ⟨p, ⟨pair, hmem, hp⟩, (infix_segment_iff hp).1 hinfix⟩
  · exact ⟨pair, hmem, (infix_segment_iff hp).2 hbilling⟩

theorem permission_eq_none_of_trim {pair : Text} (h : trim pair = []) :
    permission pair = none := by
  simp [permission, segment, h, splitOnce]

theorem splitOn_of_trim_eq_nil {scope : Text} (h : trim scope = []) :
    scope.splitOn ',' = [scope] := by
  apply List.splitOn_eq_singleton
  intro hmem
  exact absurd (trim_eq_nil_iff.1 h ',' hmem) (by decide)

/-- The scorer computes the assessment of the permissions its text stands for. -/
theorem assessGithubScope_eq (scope : Text) :
    assessGithubScope scope =
      if ∀ pair ∈ scope.splitOn ',', (permission pair).isSome then
        some (assessPermissions ((scope.splitOn ',').filterMap permission))
      else none := by
  unfold assessGithubScope
  by_cases hblank : trim scope = []
  · simp [hblank, splitOn_of_trim_eq_nil hblank, permission_eq_none_of_trim hblank]
  · rw [if_neg hblank, foldlM_assessPair]
    by_cases hall : ∀ pair ∈ scope.splitOn ',', (permission pair).isSome
    · rw [if_pos hall, if_pos hall]
      simp only [infix_scope_iff hall, Bool.true_and, Bool.false_or]
      rfl
    · rw [if_neg hall, if_neg hall]

theorem score_assessPermissions_flags (permissions : List (Text × Text)) :
    Tier.score (some (assessPermissions permissions)) =
      if permissions.any (·.1 ∈ sensitiveResources) || permissions.any (·.1 = billing) then .tier2
      else if permissions.all (·.2 ≠ writeLevel) then .tier0
      else .tier1 := by
  unfold Tier.score assessPermissions
  generalize permissions.any (·.1 ∈ sensitiveResources) = sensitive
  generalize permissions.any (·.1 = billing) = money
  generalize permissions.all (·.2 ≠ writeLevel) = readOnly
  cases sensitive <;> cases money <;> cases readOnly <;> rfl

theorem permissionTier_le {p : Text × Text} (h : p.1 ∉ sensitiveResources) :
    permissionTier p ≤ .tier1 := by
  unfold permissionTier
  rw [if_neg h]
  split <;> decide

theorem score_assessPermissions (permissions : List (Text × Text)) :
    Tier.score (some (assessPermissions permissions)) = worst (permissions.map permissionTier) := by
  rw [score_assessPermissions_flags]
  by_cases hsensitive : ∃ p ∈ permissions, p.1 ∈ sensitiveResources
  · obtain ⟨p, hmem, hp⟩ := hsensitive
    have htier : Tier.tier2 ∈ permissions.map permissionTier :=
      List.mem_map.2 ⟨p, hmem, if_pos hp⟩
    have hany : permissions.any (·.1 ∈ sensitiveResources) :=
      List.any_eq_true.2 ⟨p, hmem, decide_eq_true hp⟩
    rw [worst_eq_tier2 htier, hany, Bool.true_or, if_pos rfl]
  · have hplain : ∀ p ∈ permissions, p.1 ∉ sensitiveResources := fun p hmem hp =>
      hsensitive ⟨p, hmem, hp⟩
    have hany : permissions.any (·.1 ∈ sensitiveResources) = false :=
      List.any_eq_false.2 fun p hmem => by simpa using hplain p hmem
    have hmoney : permissions.any (·.1 = billing) = false := by
      refine List.any_eq_false.2 fun p hmem => ?_
      simp only [decide_eq_true_eq]
      intro h
      exact hplain p hmem (by rw [h]; decide)
    rw [hany, hmoney, Bool.false_or, if_neg Bool.false_ne_true]
    by_cases hread : ∀ p ∈ permissions, p.2 ≠ writeLevel
    · have hall : permissions.all (·.2 ≠ writeLevel) :=
        List.all_eq_true.2 fun p hmem => decide_eq_true (hread p hmem)
      have hle : worst (permissions.map permissionTier) ≤ .tier0 := by
        refine worst_le_iff.2 fun tier h => ?_
        obtain ⟨p, hmem, rfl⟩ := List.mem_map.1 h
        simp [permissionTier, hplain p hmem, hread p hmem]
      rw [if_pos hall]
      exact le_antisymm (Tier.tier0_le _) hle
    · simp only [not_forall, not_not] at hread
      obtain ⟨p, hmem, hp⟩ := hread
      have hall : permissions.all (·.2 ≠ writeLevel) = false :=
        List.all_eq_false.2 ⟨p, hmem, by simpa using hp⟩
      have hle : worst (permissions.map permissionTier) ≤ .tier1 := by
        refine worst_le_iff.2 fun tier h => ?_
        obtain ⟨q, hq, rfl⟩ := List.mem_map.1 h
        exact permissionTier_le (hplain q hq)
      have htier : Tier.tier1 ∈ permissions.map permissionTier :=
        List.mem_map.2 ⟨p, hmem, by simp [permissionTier, hplain p hmem, hp]⟩
      rw [hall, if_neg Bool.false_ne_true]
      exact le_antisymm (le_worst htier) hle

theorem segmentTier_of_segment {pair : Text} {p : Text × Text} (h : segment pair = some p)
    (hresource : p.1 ∈ listedResources) (hlevel : p.2 ∈ levels) :
    segmentTier pair = permissionTier p := by
  simp [segmentTier, permission_eq_some_iff.2 ⟨h, hresource, hlevel⟩]

theorem exists_of_segmentTier_lt {pair : Text} (h : segmentTier pair < .tier2) :
    ∃ p, segment pair = some p ∧ p.1 ∈ ordinaryResources ∧ p.2 ∈ levels := by
  cases hpair : permission pair with
  | none => simp [segmentTier, hpair] at h
  | some p =>
    obtain ⟨hsegment, hlisted, hlevel⟩ := permission_eq_some_iff.1 hpair
    rw [segmentTier_of_segment hsegment hlisted hlevel] at h
    rcases List.mem_append.1 hlisted with hordinary | hsensitive
    · exact ⟨p, hsegment, hordinary, hlevel⟩
    · simp [permissionTier, hsensitive] at h

theorem segmentTier_le_tier1_iff {pair : Text} :
    segmentTier pair ≤ .tier1 ↔ SegmentIn ordinaryResources pair := by
  refine ⟨fun h => ?_, fun ⟨resource, hresource, level, hlevel, h⟩ => ?_⟩
  · obtain ⟨p, hp, hordinary, hlevel⟩ := exists_of_segmentTier_lt (lt_of_le_of_lt h (by decide))
    exact ⟨p.1, hordinary, p.2, hlevel, hp⟩
  · rw [segmentTier_of_segment h (List.mem_append_left _ hresource) hlevel]
    exact permissionTier_le (not_mem_sensitive_of_mem_ordinary _ hresource)

theorem segmentTier_le_tier0_iff {pair : Text} :
    segmentTier pair ≤ .tier0 ↔ ∃ resource ∈ ordinaryResources,
      segment pair = some (resource, readLevel) := by
  refine ⟨fun h => ?_, fun ⟨resource, hresource, h⟩ => ?_⟩
  · obtain ⟨p, hp, hordinary, hlevel⟩ := exists_of_segmentTier_lt (lt_of_le_of_lt h (by decide))
    rw [segmentTier_of_segment hp (List.mem_append_left _ hordinary) hlevel] at h
    unfold permissionTier at h
    rw [if_neg (not_mem_sensitive_of_mem_ordinary _ hordinary)] at h
    rcases List.mem_pair.1 hlevel with hread | hwrite
    · exact ⟨p.1, hordinary, by rw [hp, ← hread]⟩
    · rw [if_pos hwrite] at h
      exact absurd h (by decide)
  · rw [segmentTier_of_segment h (List.mem_append_left _ hresource) (by simp [levels])]
    simp [permissionTier, not_mem_sensitive_of_mem_ordinary _ hresource]

theorem score_assessGithubScope (scope : Text) :
    Tier.score (assessGithubScope scope) = worst ((scope.splitOn ',').map segmentTier) := by
  rw [assessGithubScope_eq]
  by_cases hall : ∀ pair ∈ scope.splitOn ',', (permission pair).isSome
  · rw [if_pos hall, score_assessPermissions, List.map_filterMap]
    generalize scope.splitOn ',' = pairs at hall
    congr 1
    induction pairs with
    | nil => rfl
    | cons pair rest ih =>
      rw [List.forall_mem_cons] at hall
      obtain ⟨p, hp⟩ := Option.isSome_iff_exists.1 hall.1
      simp only [List.filterMap_cons, hp, Option.map_some, List.map_cons, ih hall.2]
      simp [segmentTier, hp]
  · rw [if_neg hall]
    simp only [not_forall, Option.not_isSome_iff_eq_none] at hall
    obtain ⟨pair, hmem, hnone⟩ := hall
    have htier : segmentTier pair = .tier2 := by simp [segmentTier, hnone]
    exact (worst_eq_tier2 (List.mem_map.2 ⟨pair, hmem, htier⟩)).symm

theorem score_le_iff {scope : Text} {bound : Tier} :
    Tier.score (assessGithubScope scope) ≤ bound ↔
      ∀ pair ∈ scope.splitOn ',', segmentTier pair ≤ bound := by
  rw [score_assessGithubScope, worst_le_iff, List.forall_mem_map]

theorem worst_congr {tiers tiers' : List Tier} (h : ∀ tier, tier ∈ tiers ↔ tier ∈ tiers') :
    worst tiers = worst tiers' := by
  apply le_antisymm
  · exact worst_le_iff.2 fun tier hmem => le_worst ((h tier).1 hmem)
  · exact worst_le_iff.2 fun tier hmem => le_worst ((h tier).2 hmem)

theorem score_append (s t : Text) :
    Tier.score (assessGithubScope (s ++ ',' :: t)) =
      max (Tier.score (assessGithubScope s)) (Tier.score (assessGithubScope t)) := by
  simp only [score_assessGithubScope, List.splitOn_append_cons_self, List.map_append, worst_append]

theorem score_congr {s t : Text} (h : ∀ pair, pair ∈ s.splitOn ',' ↔ pair ∈ t.splitOn ',') :
    Tier.score (assessGithubScope s) = Tier.score (assessGithubScope t) := by
  rw [score_assessGithubScope, score_assessGithubScope]
  apply worst_congr
  intro tier
  simp only [List.mem_map, h]

/-- Scoring takes joining to the maximum, whatever the two texts hold, so that no permission
that is added lowers a tier. -/
theorem score_homomorphism (s t : Text) :
    Tier.score (assessGithubScope (s ++ ',' :: t)) =
        max (Tier.score (assessGithubScope s)) (Tier.score (assessGithubScope t)) ∧
      Tier.score (assessGithubScope s) ≤ Tier.score (assessGithubScope (s ++ ',' :: t)) ∧
      Tier.score (assessGithubScope t) ≤ Tier.score (assessGithubScope (s ++ ',' :: t)) ∧
      ((∀ pair, pair ∈ s.splitOn ',' ↔ pair ∈ t.splitOn ',') →
        Tier.score (assessGithubScope s) = Tier.score (assessGithubScope t)) := by
  rw [score_append]
  exact ⟨rfl, le_max_left _ _, le_max_right _ _, score_congr⟩

end Custodly.Core
