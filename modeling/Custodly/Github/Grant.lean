import Custodly.Core.Policy
import Mathlib.Tactic.Common

/-! What is asked of GitHub, what GitHub grants, and the quarantine between the two
(`custodly-github/src/app.rs`). -/
namespace Custodly.Github
open Library.Strings Custodly.Core

/-- `BTreeMap<String, String>`: resources with their levels, in the order of the keys. -/
abbrev Permissions := Std.ExtTreeMap Text Text

structure AppCredentials where
  appId : Nat
  privateKeyPem : Text

structure RequestedGrant where
  installationId : Nat
  permissions : Permissions
  repositoryIds : Option (List Nat)

inductive GithubError where
  | jwt (cause : Text)
  | request (cause : Text)
  | api (status : Nat) (body : Text)
  | scopeCreep (requested granted : Permissions)
  | unrecognizedPermission (granted : Permissions)
  deriving DecidableEq

/-- The `Display` text; `debug` is the `Debug` form of a map. -/
def GithubError.message (debug : Permissions → Text) : GithubError → Text
  | .jwt cause => "could not sign the App JWT: ".toList ++ cause
  | .request cause => "GitHub API request failed: ".toList ++ cause
  | .api status body =>
      "GitHub returned ".toList ++ (toString status).toList ++ ": ".toList ++ body
  | .scopeCreep requested granted =>
      "GitHub granted more than was requested -- refusing to hand this back, ".toList ++
        "nothing was stored. requested ".toList ++ debug requested ++ ", granted ".toList ++
        debug granted
  | .unrecognizedPermission granted =>
      "GitHub granted a permission level Custodly's tiering model doesn't recognize: ".toList ++
        debug granted

def levelRank (level : Text) : Option Nat :=
  if level = readLevel then some 0
  else if level = writeLevel then some 1
  else none

def rankMax : Nat := 255

def metadataResource : Text := "metadata".toList

/-- One turn of the loop over what was granted. -/
def verifyEntry (requested granted : Permissions) (entry : Text × Text) :
    Except GithubError Unit :=
  if entry.1 = metadataResource ∧ entry.2 = readLevel then .ok ()
  else
    match requested[entry.1]? with
    | none => .error (.scopeCreep requested granted)
    | some requestedLevel =>
        match levelRank entry.2 with
        | none => .error (.unrecognizedPermission granted)
        | some grantedRank =>
            -- a requested level outside the vocabulary ranks above every granted one
            let requestedRank := (levelRank requestedLevel).getD rankMax
            if grantedRank > requestedRank then .error (.scopeCreep requested granted)
            else .ok ()

def verifyNoScopeCreep (requested granted : Permissions) : Except GithubError Unit :=
  granted.toList.forM (verifyEntry requested granted)

/-- A granted pair the quarantine lets through: GitHub's baseline, or a level asked for;
only a request at exactly `read` keeps `write` out. -/
def Covered (requested : Permissions) (entry : Text × Text) : Prop :=
  entry.1 = metadataResource ∧ entry.2 = readLevel ∨
    ∃ requestedLevel, requested[entry.1]? = some requestedLevel ∧
      (entry.2 = readLevel ∨ entry.2 = writeLevel ∧ requestedLevel ≠ readLevel)

theorem levelRank_read : levelRank readLevel = some 0 := by decide

theorem levelRank_write : levelRank writeLevel = some 1 := by decide

theorem levelRank_of_not_mem {level : Text} (h : level ∉ levels) : levelRank level = none := by
  simp only [levels, List.mem_pair, not_or] at h
  unfold levelRank
  rw [if_neg h.1, if_neg h.2]

theorem one_le_requestedRank_iff (level : Text) :
    1 ≤ (levelRank level).getD rankMax ↔ level ≠ readLevel := by
  unfold levelRank rankMax
  by_cases hread : level = readLevel
  · simp [hread]
  · by_cases hwrite : level = writeLevel <;> simp [hread, hwrite]

theorem verifyEntry_eq_ok_iff {requested granted : Permissions} {entry : Text × Text} :
    verifyEntry requested granted entry = .ok () ↔ Covered requested entry := by
  unfold verifyEntry Covered
  by_cases hbaseline : entry.1 = metadataResource ∧ entry.2 = readLevel
  · simp [hbaseline]
  · rw [if_neg hbaseline, or_iff_right hbaseline]
    cases hrequested : requested[entry.1]? with
    | none => simp
    | some requestedLevel =>
      simp only [Option.some.injEq, exists_eq_left']
      by_cases hread : entry.2 = readLevel
      · simp [hread, levelRank_read]
      · by_cases hwrite : entry.2 = writeLevel
        · have hrank := one_le_requestedRank_iff requestedLevel
          by_cases hlevel : requestedLevel = readLevel
          · simp [hwrite, hlevel, levelRank_write, levelRank_read]
          · have hle : ¬ 1 > (levelRank requestedLevel).getD rankMax :=
              Nat.not_lt.2 (hrank.2 hlevel)
            simp [hwrite, hlevel, levelRank_write, hle]
        · have hout : entry.2 ∉ levels := by simp [levels, hread, hwrite]
          simp [levelRank_of_not_mem hout, hread, hwrite]

theorem forM_eq_ok_iff {ε α : Type} {step : α → Except ε Unit} {items : List α} :
    items.forM step = .ok () ↔ ∀ item ∈ items, step item = .ok () := by
  induction items with
  | nil => simp [pure, Except.pure]
  | cons item rest ih =>
    rw [List.forM, List.forall_mem_cons, ← ih]
    cases step item with
    | error e => simp [bind, Except.bind]
    | ok _ => simp [bind, Except.bind]

theorem verifyNoScopeCreep_eq_ok_iff {requested granted : Permissions} :
    verifyNoScopeCreep requested granted = .ok () ↔
      ∀ entry ∈ granted.toList, Covered requested entry := by
  unfold verifyNoScopeCreep
  simp only [forM_eq_ok_iff, verifyEntry_eq_ok_iff]

theorem Covered.level_mem {requested : Permissions} {entry : Text × Text}
    (h : Covered requested entry) : entry.2 ∈ levels := by
  rcases h with ⟨-, h⟩ | ⟨-, -, h | ⟨h, -⟩⟩ <;> simp [h, levels]

structure InstallationTokenResponse (T : Type) where
  token : Text
  expiresAt : T
  /-- Empty where the reply has no such field. -/
  permissions : Permissions

structure MintedToken (T : Type) where
  token : Text
  expiresAt : T
  grantedPermissions : Permissions
  scopeString : Text
  tier : Tier

def permissionText (entry : Text × Text) : Text := entry.1 ++ ':' :: entry.2

def scopeText (permissions : Permissions) : Text :=
  [','].intercalate (permissions.toList.map permissionText)

variable {T : Type}

def MintedToken.fromResponse (resp : InstallationTokenResponse T) : MintedToken T :=
  let scopeString := scopeText resp.permissions
  { token := resp.token
    expiresAt := resp.expiresAt
    grantedPermissions := resp.permissions
    scopeString := scopeString
    tier := Tier.score (assessGithubScope scopeString) }

/-- The tier of one granted pair, read from the pair itself. -/
def entryTier (entry : Text × Text) : Tier :=
  if trim entry.1 ∉ listedResources ∨ trim entry.1 ∈ sensitiveResources then .tier2
  else if entry.2 = readLevel then .tier0
  else .tier1

def grantedTier (permissions : Permissions) : Tier :=
  if permissions.isEmpty then .tier2
  else worst (permissions.toList.map entryTier)

theorem comma_not_mem_levels : ∀ level ∈ levels, ',' ∉ level := by decide

theorem trim_levels : ∀ level ∈ levels, trim level = level := by decide

theorem comma_not_mem_listed : ∀ resource ∈ listedResources, ',' ∉ resource := by decide

theorem splitOn_scopeText {permissions : Permissions} (h : permissions.toList ≠ []) :
    (scopeText permissions).splitOn ',' =
      permissions.toList.flatMap fun entry => (permissionText entry).splitOn ',' := by
  unfold scopeText
  rw [splitOn_intercalate_flatMap (by simpa using h), List.flatMap_map]

/-- The greatest tier among the segments one entry of the map turns into. -/
def textTier (entry : Text × Text) : Tier :=
  worst (((permissionText entry).splitOn ',').map segmentTier)

theorem worst_flatMap {α : Type} (items : List α) (tiers : α → List Tier) :
    worst (items.flatMap tiers) = worst (items.map fun item => worst (tiers item)) := by
  induction items with
  | nil => rfl
  | cons item rest ih =>
    rw [List.flatMap_cons, worst_append, ih]
    rfl

/-- Joining keeps the entries apart: the tier of the text is that of its worst entry. -/
theorem score_scopeText {permissions : Permissions} (h : permissions.toList ≠ []) :
    Tier.score (assessGithubScope (scopeText permissions)) =
      worst (permissions.toList.map textTier) := by
  rw [score_assessGithubScope, splitOn_scopeText h, List.map_flatMap, worst_flatMap]
  rfl

theorem segmentTier_of_colon_not_mem {pair : Text} (h : ':' ∉ pair) :
    segmentTier pair = .tier2 := by
  have hsplit : splitOnce ':' (trim pair) = none :=
    splitOnce_eq_none_iff.2 fun hmem => h (mem_of_mem_trim hmem)
  simp [segmentTier, permission, Core.segment, hsplit]

theorem segment_permissionText {resource : Text} (level : Text) (h : ':' ∉ resource) :
    Core.segment (permissionText (resource, level)) = some (trim resource, trim level) := by
  have hstart : ':' ∉ trimStart resource := fun hmem =>
    h ((List.dropWhile_subset _) hmem)
  unfold Core.segment permissionText
  rw [trim_append_cons _ _ (by decide), splitOnce_append _ hstart]
  simp

theorem textTier_of_comma_mem {entry : Text × Text} (hcolon : ':' ∉ entry.1)
    (hcomma : ',' ∈ entry.1) : textTier entry = .tier2 := by
  obtain ⟨first, rest, heq, hfirst⟩ := List.eq_append_cons_of_mem hcomma
  have hpieces : (permissionText entry).splitOn ',' =
      first :: (rest ++ ':' :: entry.2).splitOn ',' := by
    unfold permissionText
    rw [heq, List.append_assoc, List.cons_append, List.splitOn_append_cons_self,
      List.splitOn_eq_singleton hfirst, List.singleton_append]
  have hnone : ':' ∉ first := fun hmem => hcolon (by rw [heq]; simp [hmem])
  unfold textTier
  rw [hpieces, List.map_cons, segmentTier_of_colon_not_mem hnone]
  exact worst_eq_tier2 (by simp)

theorem exists_splitOn_permissionText {entry : Text × Text} (hcomma : ',' ∉ entry.1) :
    ∃ level rest, entry.2.splitOn ',' = level :: rest ∧
      (permissionText entry).splitOn ',' = permissionText (entry.1, level) :: rest := by
  have hfront : ',' ∉ entry.1 ++ [':'] := by simp [hcomma]
  have happend : permissionText entry = (entry.1 ++ [':']) ++ entry.2 := by simp [permissionText]
  cases hlevel : entry.2.splitOn ',' with
  | nil => exact absurd hlevel (List.splitOn_ne_nil ',' entry.2)
  | cons level rest =>
    refine ⟨level, rest, rfl, ?_⟩
    rw [happend, splitOn_append_of_not_mem _ hfront, hlevel]
    simp [permissionText]

theorem entryTier_of_ordinary {entry : Text × Text} (h : trim entry.1 ∈ ordinaryResources) :
    entryTier entry = if entry.2 = readLevel then .tier0 else .tier1 := by
  have hlisted : trim entry.1 ∈ listedResources := List.mem_append_left _ h
  simp [entryTier, hlisted, not_mem_sensitive_of_mem_ordinary _ h]

theorem entryTier_of_not_ordinary {entry : Text × Text}
    (h : trim entry.1 ∉ ordinaryResources) : entryTier entry = .tier2 := by
  by_cases hsensitive : trim entry.1 ∈ sensitiveResources
  · simp [entryTier, hsensitive]
  · have hlisted : trim entry.1 ∉ listedResources := fun hmem =>
      (List.mem_append.1 hmem).elim h hsensitive
    simp [entryTier, hlisted]

theorem ordinary_of_textTier_le {entry : Text × Text} (hcolon : ':' ∉ entry.1)
    (h : textTier entry ≤ .tier1) : trim entry.1 ∈ ordinaryResources := by
  by_cases hcomma : ',' ∈ entry.1
  · rw [textTier_of_comma_mem hcolon hcomma] at h
    exact absurd h (by decide)
  · obtain ⟨level, rest, -, hpieces⟩ := exists_splitOn_permissionText hcomma
    unfold textTier at h
    rw [hpieces, worst_le_iff, List.map_cons, List.forall_mem_cons] at h
    obtain ⟨resource, hresource, level', -, hsegment⟩ := segmentTier_le_tier1_iff.1 h.1
    rw [segment_permissionText level hcolon, Option.some.injEq, Prod.mk.injEq] at hsegment
    rw [hsegment.1]
    exact hresource

/-- At a level of the vocabulary, the text of an entry scores what the entry scores. -/
theorem textTier_eq_entryTier {entry : Text × Text} (hcolon : ':' ∉ entry.1)
    (hlevel : entry.2 ∈ levels) : textTier entry = entryTier entry := by
  by_cases hcomma : ',' ∈ entry.1
  · have hout : trim entry.1 ∉ ordinaryResources := fun hmem =>
      comma_not_mem_listed _ (List.mem_append_left _ hmem)
        (mem_trim_of_mem hcomma (by decide))
    rw [textTier_of_comma_mem hcolon hcomma, entryTier_of_not_ordinary hout]
  · have hpiece : (permissionText entry).splitOn ',' = [permissionText entry] := by
      apply List.splitOn_eq_singleton
      simp [permissionText, hcomma, comma_not_mem_levels _ hlevel]
    have hone : textTier entry = segmentTier (permissionText entry) := by
      unfold textTier
      rw [hpiece]
      exact max_eq_left (Tier.tier0_le _)
    have hsegment := segment_permissionText entry.2 hcolon
    rw [trim_levels _ hlevel] at hsegment
    rw [hone]
    by_cases hordinary : trim entry.1 ∈ ordinaryResources
    · rw [segmentTier_of_segment hsegment (List.mem_append_left _ hordinary) hlevel,
        entryTier_of_ordinary hordinary]
      unfold permissionTier
      rw [if_neg (not_mem_sensitive_of_mem_ordinary _ hordinary)]
      rcases List.mem_pair.1 hlevel with hread | hwrite
      · simp [hread]
      · simp [hwrite]
    · rw [entryTier_of_not_ordinary hordinary]
      apply le_antisymm (Tier.le_tier2 _)
      by_contra hlt
      obtain ⟨p, hp, hmem, -⟩ := exists_of_segmentTier_lt (lt_of_not_ge hlt)
      rw [hsegment, Option.some.injEq] at hp
      exact hordinary (by rw [← hp] at hmem; exact hmem)

end Custodly.Github
