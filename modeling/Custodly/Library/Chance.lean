import Custodly.Library.Interaction
import Mathlib.Probability.ProbabilityMassFunction.Constructions

/-! The chance of a value where the surroundings answer at random: each request for itself,
with odds of its own, or not at all.  The values that have a chance are those that runs
return. -/
namespace Custodly.Library.Interaction
open scoped ENNReal

variable {Request : Type} {Reply : Request → Type} {α β ε : Type}

/-- How the surroundings answer each request, as far as they do. -/
abbrev Odds (Request : Type) (Reply : Request → Type) := (r : Request) → Option (PMF (Reply r))

namespace Program

noncomputable def chance (odds : Odds Request Reply) : Program Request Reply α → PMF (Option α)
  | .done value => PMF.pure (some value)
  | .ask r rest =>
      match odds r with
      | none => PMF.pure none
      | some law => law.bind fun reply => (rest reply).chance odds

variable {odds : Odds Request Reply}

@[simp] theorem chance_done (value : α) :
    (Program.done value : Program Request Reply α).chance odds = PMF.pure (some value) := rfl

theorem chance_unanswered {r : Request} {rest : Reply r → Program Request Reply α}
    (h : odds r = none) : (Program.ask r rest).chance odds = PMF.pure none := by
  simp only [chance, h]

theorem chance_ask {r : Request} {rest : Reply r → Program Request Reply α} {law : PMF (Reply r)}
    (h : odds r = some law) :
    (Program.ask r rest).chance odds = law.bind fun reply => (rest reply).chance odds := by
  simp only [chance, h]

theorem chance_ask_pure {r : Request} {rest : Reply r → Program Request Reply α} {reply : Reply r}
    (h : odds r = some (PMF.pure reply)) :
    (Program.ask r rest).chance odds = (rest reply).chance odds := by
  rw [chance_ask h, PMF.pure_bind]

theorem chance_bind {program : Program Request Reply α} {next : α → Program Request Reply β} :
    (program >>= next).chance odds =
      (program.chance odds).bind fun
        | none => PMF.pure none
        | some a => (next a).chance odds := by
  induction program with
  | done a =>
    rw [done_bind, chance_done, PMF.pure_bind]
  | ask r rest ih =>
    rw [ask_bind]
    cases hlaw : odds r with
    | none => rw [chance_unanswered hlaw, chance_unanswered hlaw, PMF.pure_bind]
    | some law =>
      rw [chance_ask hlaw, chance_ask hlaw, PMF.bind_bind]
      simp only [ih]

theorem chance_map {program : Program Request Reply α} {f : α → β} :
    (f <$> program).chance odds = (program.chance odds).map (Option.map f) := by
  rw [map_eq_pure_bind, chance_bind, PMF.map]
  congr 1
  funext value
  cases value <;> rfl

end Program

def Likely (odds : Odds Request Reply) (event : Event Request Reply) : Prop :=
  ∃ law, odds event.1 = some law ∧ event.2 ∈ law.support

/-- The values that have a chance are the ones that a run of likely events returns. -/
theorem chance_ne_zero_iff {odds : Odds Request Reply} {program : Program Request Reply α} {a : α} :
    program.chance odds (some a) ≠ 0 ↔
      ∃ trace, Run program trace (some a) ∧ ∀ event ∈ trace, Likely odds event := by
  constructor
  · intro h
    induction program with
    | done value =>
      have hmem : some a ∈ (PMF.pure (some value)).support := h
      rw [PMF.support_pure, Set.mem_singleton_iff, Option.some.injEq] at hmem
      exact ⟨[], hmem ▸ .done value, by simp⟩
    | ask r rest ih =>
      cases hlaw : odds r with
      | none =>
        rw [Program.chance_unanswered hlaw] at h
        have hmem : some a ∈ (PMF.pure (none : Option α)).support := h
        rw [PMF.support_pure, Set.mem_singleton_iff] at hmem
        cases hmem
      | some law =>
        rw [Program.chance_ask hlaw] at h
        obtain ⟨reply, hreply, hrest⟩ := (PMF.mem_support_bind_iff _ _ _).1 h
        obtain ⟨trace, hrun, htrace⟩ := ih reply hrest
        refine ⟨⟨r, reply⟩ :: trace, .ask reply hrun, ?_⟩
        rw [List.forall_mem_cons]
        exact ⟨⟨law, hlaw, hreply⟩, htrace⟩
  · rintro ⟨trace, hrun, htrace⟩
    induction trace generalizing program with
    | nil =>
      cases hrun with
      | done value => simp
    | cons event trace ih =>
      rw [List.forall_mem_cons] at htrace
      cases hrun with
      | ask reply tail =>
        obtain ⟨⟨law, hlaw, hreply⟩, hrest⟩ := htrace
        rw [Program.chance_ask hlaw]
        exact (PMF.mem_support_bind_iff _ _ _).2 ⟨reply, hreply, ih tail hrest⟩

end Custodly.Library.Interaction
