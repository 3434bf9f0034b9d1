import Custodly.Core.Making
import Custodly.Vault.Vault

/-! Which entries `Vault::put` can be given, and the group it writes them to
(`custodly-core/src/entry.rs`, `custodly-vault/src/vault.rs`).  `put` makes the group of
`metadata.project` and adds under `group_path`, without comparing the two. -/
namespace Custodly.Vault
open Library Library.Strings Library.Interaction Library.Surroundings Custodly.Core Host

variable {T : Type} [DateTimeUtc T]

/-- Whatever becomes of a put, it makes the group of its entry's project and adds nothing but
under that group and the entry's label. -/
def WritesInGroup (entry : VaultEntry T) : Prop :=
  ∀ (vault : Vault) trace value, Run (vault.put entry : Action T _ _).run trace value →
    ∀ path args reply, ⟨.spawn path args, reply⟩ ∈ trace →
      (∃ db, args = mkdirArgs db entry.metadata.project) ∨
        ∃ notes db, args = addArgs notes db (entry.metadata.project ++ '/' :: entry.label)

theorem writesInGroup_of_filed {entry : VaultEntry T} (h : Filed entry) : WritesInGroup entry := by
  intro vault trace value hrun path args reply hmem
  have hissued := hrun.issues (issues_put_args vault entry) _ hmem
  rcases hissued with hmkdir | ⟨db, hadd⟩
  · exact .inl hmkdir
  · rw [h.groupPath] at hadd
    exact .inr ⟨_, db, hadd⟩

def AllWritten (values : Values T) : Prop :=
  ∀ slot entry, values.entries slot = some entry → Filed entry ∧ WritesInGroup entry

theorem allWritten_iff {values : Values T} : AllWritten values ↔ AllFiled values :=
  forall₃_congr fun _ _ _ => and_iff_left_of_imp writesInGroup_of_filed

/-- However entries are made, they are filed under their own projects throughout just when no
step is one that files one wrongly. -/
theorem allWritten_iff_keeps (trace : List (Event (Making T) fun _ => Unit)) (final : Values T) :
    EveryState makingStep AllWritten Values.empty trace final ↔
      EveryStep makingStep (fun values event => Keeps values event.1) Values.empty trace final := by
  constructor
  · intro hwritten before event after values htrace hbefore hafter
    obtain ⟨next, hstep, hrest⟩ := hafter
    have hfiled := allWritten_iff.1 (hwritten before (event :: after) values htrace hbefore
      ⟨next, hstep, hrest⟩)
    have hnext := allWritten_iff.1 (hwritten (before ++ [event]) after next (by rw [htrace]; simp)
      (follows_append.2 ⟨values, hbefore, next, hstep, rfl⟩) hrest)
    rw [show next = _ from hstep] at hnext
    exact (allFiled_apply_iff hfiled event.1).1 hnext
  · intro hkeeps before after values htrace hbefore hafter
    apply allWritten_iff.2
    apply @EveryStep.invariant _ _ _ _ _ (fun _ => AllFiled) _ _ _ _ hkeeps _ _ _ _ htrace hbefore
      hafter
    · intro past values event next hadmits hstep hfiled
      rw [show next = _ from hstep]
      exact (allFiled_apply_iff hfiled event.1).2 hadmits
    · intro slot entry hentry
      cases hentry

def refilingTrace : List (Event (Making SampleInstant) fun _ => Unit) :=
  [⟨.newMetadata 0 "github".toList "redaktly".toList "a key".toList .manualEntry .noon none .tier0,
      ()⟩,
    ⟨.newEntry 0 "pat".toList 0 "ghs_a".toList, ()⟩,
    ⟨.assignEntry 0 (.inMetadata (.project "acme".toList)), ()⟩]

/-- After `entry.metadata.project = "acme"` an entry is still filed under `redaktly`. -/
theorem not_allWritten :
    ¬ ∀ (trace : List (Event (Making SampleInstant) fun _ => Unit)) (final : Values SampleInstant),
      Follows makingStep Values.empty trace final → AllWritten final := by
  intro h
  have hwritten := h refilingTrace _ ⟨_, rfl, _, rfl, _, rfl, rfl⟩
  have hpath := (hwritten 0 _ rfl).1.groupPath
  exact absurd hpath (by decide)

end Custodly.Vault
