import Custodly.Core.EntryJson
import Custodly.Library.Surroundings
import Mathlib.Logic.Function.Basic

/-! What a user of the crate can do with metadata and entries (`custodly-core/src/entry.rs`):
call the two constructors, deserialize either type, and assign to any field, for all of them
are public. -/
namespace Custodly.Core
open Library Library.Strings Library.Interaction Library.Surroundings

variable {T : Type}

structure Values (T : Type) where
  metadata : Nat → Option (EntryMetadata T)
  entries : Nat → Option (VaultEntry T)

def Values.empty : Values T := ⟨fun _ => none, fun _ => none⟩

inductive MetadataField (T : Type) where
  | provider (value : Text)
  | project (value : Text)
  | sourceDescription (value : Text)
  | acquiredVia (value : AcquisitionSource)
  | acquiredAt (value : T)
  | expiresAt (value : Option T)
  | tier (value : Tier)

def MetadataField.assign (field : MetadataField T) (m : EntryMetadata T) : EntryMetadata T :=
  match field with
  | .provider value => { m with provider := value }
  | .project value => { m with project := value }
  | .sourceDescription value => { m with sourceDescription := value }
  | .acquiredVia value => { m with acquiredVia := value }
  | .acquiredAt value => { m with acquiredAt := value }
  | .expiresAt value => { m with expiresAt := value }
  | .tier value => { m with tier := value }

inductive EntryField (T : Type) where
  | groupPath (value : Text)
  | label (value : Text)
  | inMetadata (field : MetadataField T)
  | secret (value : Text)

def EntryField.assign (field : EntryField T) (entry : VaultEntry T) : VaultEntry T :=
  match field with
  | .groupPath value => { entry with groupPath := value }
  | .label value => { entry with label := value }
  | .inMetadata field => { entry with metadata := field.assign entry.metadata }
  | .secret value => { entry with secret := value }

/-- One step; `slot` is the variable that gets the result. -/
inductive Making (T : Type) where
  | newMetadata (slot : Nat) (provider project sourceDescription : Text)
      (acquiredVia : AcquisitionSource) (acquiredAt : T) (expiresAt : Option T) (tier : Tier)
  | readMetadata (slot : Nat) (json : Json)
  | assignMetadata (slot : Nat) (field : MetadataField T)
  | takeMetadata (slot entry : Nat)
  | newEntry (slot : Nat) (label : Text) (metadata : Nat) (secret : Text)
  | readEntry (slot : Nat) (json : Json)
  | assignEntry (slot : Nat) (field : EntryField T)
  | replaceMetadata (slot metadata : Nat)

def Values.setMetadata (values : Values T) (slot : Nat) (made : Option (EntryMetadata T)) :
    Values T :=
  { values with metadata := Function.update values.metadata slot (made.or (values.metadata slot)) }

def Values.setEntry (values : Values T) (slot : Nat) (made : Option (VaultEntry T)) : Values T :=
  { values with entries := Function.update values.entries slot (made.or (values.entries slot)) }

variable [DateTimeUtc T]

def Values.apply (values : Values T) : Making T → Values T
  | .newMetadata slot provider project sourceDescription acquiredVia acquiredAt expiresAt tier =>
      values.setMetadata slot (EntryMetadata.new provider project sourceDescription acquiredVia
        acquiredAt expiresAt tier).toOption
  | .readMetadata slot json => values.setMetadata slot (EntryMetadata.ofJson json)
  | .assignMetadata slot field =>
      values.setMetadata slot ((values.metadata slot).map field.assign)
  | .takeMetadata slot entry =>
      values.setMetadata slot ((values.entries entry).map VaultEntry.metadata)
  | .newEntry slot label metadata secret =>
      values.setEntry slot ((values.metadata metadata).map fun m => VaultEntry.new label m secret)
  | .readEntry slot json => values.setEntry slot (VaultEntry.ofJson json)
  | .assignEntry slot field => values.setEntry slot ((values.entries slot).map field.assign)
  | .replaceMetadata slot metadata => values.setEntry slot do
      let entry ← values.entries slot
      let m ← values.metadata metadata
      some { entry with metadata := m }

def makingStep : Step (Making T) (fun _ => Unit) (Values T) := fun values event values' =>
  values' = values.apply event.1

/-- A traceable entry under the path of its own project and label. -/
structure Filed (entry : VaultEntry T) : Prop where
  traceable : entry.metadata.Traceable
  groupPath : entry.groupPath = entry.query.groupPath

def AllFiled (values : Values T) : Prop :=
  ∀ slot entry, values.entries slot = some entry → Filed entry

/-- The texts of an entry's JSON agree: neither its project nor its description is blank, and
its path is that of its project and label. -/
def JsonFiled (json : Json) : Prop :=
  ∀ groupPath label metadata secret, json.fields VaultEntry.fieldNames =
      some [some (.string groupPath), some (.string label), some metadata, secret] →
    ∀ provider project sourceDescription rest, metadata.fields EntryMetadata.fieldNames =
        some (provider :: some (.string project) :: some (.string sourceDescription) :: rest) →
      trim project ≠ [] ∧ trim sourceDescription ≠ [] ∧ groupPath = project ++ '/' :: label

def MetadataField.Keeps (entry : VaultEntry T) : MetadataField T → Prop
  | .project value => value = entry.metadata.project
  | .sourceDescription value => trim value ≠ []
  | _ => True

def EntryField.Keeps (entry : VaultEntry T) : EntryField T → Prop
  | .groupPath value => value = entry.groupPath
  | .label value => value = entry.label
  | .inMetadata field => field.Keeps entry
  | .secret _ => True

/-- A step that files no entry wrongly: `new` gets traceable metadata, JSON agrees with itself,
and an assignment leaves path, label and project as they are and the description not blank. -/
def Keeps (values : Values T) : Making T → Prop
  | .newEntry _ _ metadata _ => ∀ m, values.metadata metadata = some m → m.Traceable
  | .readEntry _ json => (VaultEntry.ofJson json : Option (VaultEntry T)).isSome → JsonFiled json
  | .assignEntry slot field => ∀ entry, values.entries slot = some entry → field.Keeps entry
  | .replaceMetadata slot metadata => ∀ entry m, values.entries slot = some entry →
      values.metadata metadata = some m → m.Traceable ∧ m.project = entry.metadata.project
  | _ => True

omit [DateTimeUtc T] in
theorem allFiled_setEntry {values : Values T} (h : AllFiled values) {slot : Nat}
    {made : Option (VaultEntry T)} :
    AllFiled (values.setEntry slot made) ↔ ∀ entry, made = some entry → Filed entry := by
  unfold Values.setEntry
  constructor
  · rintro hall entry rfl
    exact hall slot entry (by simp)
  · intro hmade slot' entry hentry
    by_cases hslot : slot' = slot
    · rw [hslot] at hentry
      simp only [Function.update_self, Option.or_eq_some_iff] at hentry
      rcases hentry with hentry | ⟨-, hentry⟩
      · exact hmade entry hentry
      · exact h slot entry hentry
    · simp only [Function.update_of_ne hslot] at hentry
      exact h slot' entry hentry

omit [DateTimeUtc T] in
theorem filed_assign_iff {entry : VaultEntry T} (h : Filed entry) (field : EntryField T) :
    Filed (field.assign entry) ↔ field.Keeps entry := by
  obtain ⟨groupPath, label, metadata, secret⟩ := entry
  obtain ⟨htraceable, hpath⟩ := h
  have hiff (after : VaultEntry T) :
      Filed after ↔ after.metadata.Traceable ∧ after.groupPath = after.query.groupPath :=
    ⟨fun h => ⟨h.1, h.2⟩, fun h => ⟨h.1, h.2⟩⟩
  rw [hiff]
  unfold EntryMetadata.Traceable at htraceable ⊢
  simp only [VaultEntry.query, SecretQuery.groupPath] at htraceable hpath
  cases field with
  | groupPath value =>
    simp [EntryField.assign, EntryField.Keeps, VaultEntry.query, SecretQuery.groupPath, htraceable,
      hpath]
  | label value =>
    simp [EntryField.assign, EntryField.Keeps, VaultEntry.query, SecretQuery.groupPath, htraceable,
      hpath, eq_comm]
  | secret value =>
    simp [EntryField.assign, EntryField.Keeps, VaultEntry.query, SecretQuery.groupPath, htraceable,
      hpath]
  | inMetadata field =>
    cases field with
    | project value =>
      simp only [EntryField.assign, MetadataField.assign, EntryField.Keeps, MetadataField.Keeps,
        VaultEntry.query, SecretQuery.groupPath, hpath, List.append_cancel_right_eq]
      constructor
      · exact fun hfiled => hfiled.2.symm
      · rintro rfl
        exact ⟨htraceable, rfl⟩
    | _ =>
      simp [EntryField.assign, MetadataField.assign, EntryField.Keeps, MetadataField.Keeps,
        VaultEntry.query, SecretQuery.groupPath, htraceable, hpath]

theorem filed_ofJson_iff {json : Json} {entry : VaultEntry T}
    (h : VaultEntry.ofJson json = some entry) : Filed entry ↔ JsonFiled json := by
  obtain ⟨metadata, hfields, hmetadata⟩ := VaultEntry.fields_of_ofJson h
  obtain ⟨_, _, _, _, hinner⟩ := EntryMetadata.fields_of_ofJson hmetadata
  constructor
  · intro hfiled groupPath label metadata' secret hfields' provider project description rest hinner'
    rw [hfields] at hfields'
    cases hfields'
    rw [hinner] at hinner'
    cases hinner'
    exact ⟨hfiled.traceable.1, hfiled.traceable.2, hfiled.groupPath⟩
  · intro hjson
    obtain ⟨hproject, hdescription, hpath⟩ := hjson _ _ _ _ hfields _ _ _ _ hinner
    exact ⟨⟨hproject, hdescription⟩, hpath⟩

/-- One step leaves all entries filed just when it is one that keeps them so. -/
theorem allFiled_apply_iff {values : Values T} (h : AllFiled values) (making : Making T) :
    AllFiled (values.apply making) ↔ Keeps values making := by
  cases making with
  | newEntry slot label metadata secret =>
    unfold Values.apply Keeps
    rw [allFiled_setEntry h]
    constructor
    · intro hfiled m hm
      exact (hfiled (VaultEntry.new label m secret) (by rw [hm]; rfl)).traceable
    · intro htraceable entry hentry
      obtain ⟨m, hm, rfl⟩ := Option.map_eq_some_iff.1 hentry
      exact ⟨htraceable m hm, rfl⟩
  | readEntry slot json =>
    unfold Values.apply Keeps
    rw [allFiled_setEntry h]
    constructor
    · intro hfiled hread
      obtain ⟨entry, hentry⟩ := Option.isSome_iff_exists.1 hread
      exact (filed_ofJson_iff hentry).1 (hfiled entry hentry)
    · intro hjson entry hentry
      exact (filed_ofJson_iff hentry).2 (hjson (by rw [hentry]; rfl))
  | assignEntry slot field =>
    unfold Values.apply Keeps
    rw [allFiled_setEntry h]
    constructor
    · intro hfiled entry hentry
      exact (filed_assign_iff (h slot entry hentry) field).1 (hfiled _ (by rw [hentry]; rfl))
    · intro hkeeps assigned hassigned
      obtain ⟨entry, hentry, rfl⟩ := Option.map_eq_some_iff.1 hassigned
      exact (filed_assign_iff (h slot entry hentry) field).2 (hkeeps entry hentry)
  | replaceMetadata slot metadata =>
    unfold Values.apply Keeps
    rw [allFiled_setEntry h]
    constructor
    · intro hfiled entry m hentry hm
      have hreplaced := hfiled { entry with metadata := m } (by rw [hentry, hm]; rfl)
      have hpath : entry.groupPath = _ := hreplaced.groupPath
      rw [(h slot entry hentry).groupPath] at hpath
      exact ⟨hreplaced.traceable, (List.append_cancel_right hpath).symm⟩
    · intro hkeeps replaced hreplaced
      simp only [Option.bind_eq_bind, Option.bind_eq_some_iff] at hreplaced
      obtain ⟨entry, hentry, m, hm, hsame⟩ := hreplaced
      cases hsame
      obtain ⟨htraceable, hproject⟩ := hkeeps entry m hentry hm
      refine ⟨htraceable, ?_⟩
      rw [(h slot entry hentry).groupPath]
      simp only [VaultEntry.query, hproject]
  | _ => exact iff_of_true h trivial

end Custodly.Core
