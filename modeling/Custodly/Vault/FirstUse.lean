import Custodly.Library.Chance
import Custodly.Vault.Password
import Mathlib.Probability.Distributions.Uniform

/-! The odds of the password that is made up on first use (`custodly-vault/src/password.rs`):
where the draws are fair, every text of the right length over the characters is as likely as
every other, and nothing else comes of it. -/
namespace Custodly.Vault
open Library Library.Strings Library.Interaction Host
open scoped ENNReal

variable {T : Type}

instance : NeZero passwordChars.length := ⟨by decide⟩

theorem nodup_passwordChars : passwordChars.Nodup := by decide

noncomputable def fairDraw : PMF (Fin passwordChars.length) := PMF.uniformOfFintype _

noncomputable def fairChance (length : Nat) : ℝ≥0∞ := ((passwordChars.length : ℝ≥0∞)⁻¹) ^ length

section Cons

variable {ε : Type} (law : PMF (Option (Except ε Text)))

def consOutcome (c : Char) : Option (Except ε Text) → Option (Except ε Text) :=
  Option.map (Except.map (c :: ·))

theorem consOutcome_eq_some_iff {c d : Char} {rest : Text} {outcome : Option (Except ε Text)} :
    consOutcome c outcome = some (.ok (d :: rest)) ↔ c = d ∧ outcome = some (.ok rest) := by
  rcases outcome with _ | (e | text)
  · simp [consOutcome]
  · simp [consOutcome, Except.map]
  · simp [consOutcome, Except.map]

theorem map_consOutcome_cons (c d : Char) (rest : Text) :
    law.map (consOutcome c) (some (.ok (d :: rest))) =
      if c = d then law (some (.ok rest)) else 0 := by
  rw [PMF.map_apply]
  by_cases hchar : c = d
  · rw [if_pos hchar, tsum_eq_single (some (.ok rest))]
    · exact if_pos (consOutcome_eq_some_iff.2 ⟨hchar, rfl⟩).symm
    · intro outcome hne
      exact if_neg fun h => hne (consOutcome_eq_some_iff.1 h.symm).2
  · rw [if_neg hchar, ENNReal.tsum_eq_zero]
    intro outcome
    exact if_neg fun h => hchar (consOutcome_eq_some_iff.1 h.symm).1

theorem map_consOutcome_nil (c : Char) : law.map (consOutcome c) (some (.ok [])) = 0 := by
  rw [PMF.map_apply, ENNReal.tsum_eq_zero]
  intro outcome
  rw [if_neg]
  rcases outcome with _ | (e | text) <;> simp [consOutcome, Except.map]

theorem fairDraw_bind_cons (d : Char) (rest : Text) :
    fairDraw.bind (fun index => law.map (consOutcome (passwordChars.get index)))
      (some (.ok (d :: rest))) =
        if d ∈ passwordChars then (passwordChars.length : ℝ≥0∞)⁻¹ * law (some (.ok rest))
        else 0 := by
  rw [PMF.bind_apply, tsum_fintype]
  simp only [map_consOutcome_cons, fairDraw, PMF.uniformOfFintype_apply, Fintype.card_fin]
  split
  · rename_i hmem
    obtain ⟨index, hindex⟩ := List.get_of_mem hmem
    rw [Finset.sum_eq_single index]
    · rw [if_pos hindex]
    · intro other _ hother
      rw [if_neg, mul_zero]
      intro hsame
      exact hother (List.nodup_iff_injective_get.1 nodup_passwordChars (hsame.trans hindex.symm))
    · exact fun hnot => (hnot (Finset.mem_univ index)).elim
  · rename_i hnot
    apply Finset.sum_eq_zero
    intro index _
    rw [if_neg, mul_zero]
    rintro rfl
    exact hnot (List.get_mem _ _)

end Cons

variable {odds : Odds (Call T) (Reply T)}

/-- Each draw is fair, whatever the others. -/
def Fair (odds : Odds (Call T) (Reply T)) : Prop :=
  odds (.randomIndex passwordChars.length) = some fairDraw

theorem run_generateChars_succ (length : Nat) :
    (generateChars (length + 1) : Action T _ _).run = .ask (.randomIndex passwordChars.length)
      fun index => Except.map (passwordChars.get index :: ·) <$> (generateChars length).run := by
  rw [generateChars, run_call_bind]
  congr 1
  funext index
  rw [bind_pure_comp, ExceptT.run_map]

theorem chance_generateChars (hfair : Fair odds) (length : Nat) (password : Text) :
    (generateChars length : Action T _ _).run.chance odds (some (.ok password)) =
      if Generated length password then fairChance length else 0 := by
  induction length generalizing password with
  | zero =>
    rw [show (generateChars 0 : Action T KeyringError Text).run = .done (.ok []) from rfl,
      Program.chance_done, PMF.pure_apply]
    simp only [Option.some.injEq, Except.ok.injEq, generated_zero, fairChance, pow_zero]
  | succ length ih =>
    rw [run_generateChars_succ, Program.chance_ask hfair]
    simp only [Program.chance_map]
    cases password with
    | nil =>
      rw [if_neg (fun h => by cases h.1), PMF.bind_apply, ENNReal.tsum_eq_zero]
      intro index
      exact mul_eq_zero_of_right _ (map_consOutcome_nil _ _)
    | cons c rest =>
      refine (fairDraw_bind_cons _ c rest).trans ?_
      rw [ih]
      by_cases hmem : c ∈ passwordChars
      · by_cases hrest : Generated length rest
        · rw [if_pos hmem, if_pos hrest, if_pos (generated_cons.2 ⟨hmem, hrest⟩), fairChance,
            fairChance, pow_succ']
        · rw [if_pos hmem, if_neg hrest, if_neg fun h => hrest (generated_cons.1 h).2, mul_zero]
      · rw [if_neg hmem, if_neg fun h => hmem (generated_cons.1 h).1]

/-- A keystore that has no password under the name yet, and takes one. -/
structure FirstUse (odds : Odds (Call T) (Reply T)) (name : Text) : Prop where
  fair : Fair odds
  opens : odds (.keyringEntry service name) = some (PMF.pure (.ok ()))
  unset : odds (.getPassword service name) = some (PMF.pure (.error .noEntry))
  stores : ∀ password, odds (.setPassword service name password) = some (PMF.pure (.ok ()))

theorem chance_getOrCreate {name : Text} (h : FirstUse odds name) :
    (getOrCreate name : Action T _ _).run.chance odds =
      (generate : Action T _ _).run.chance odds := by
  unfold getOrCreate
  rw [run_call_bind, Program.chance_ask_pure h.opens, run_attempt_ok_bind, run_call_bind,
    Program.chance_ask_pure h.unset]
  -- the password goes into the keystore, and is returned as it was made
  change (ExceptT.run (generate >>= _)).chance odds = _
  rw [ExceptT.run_bind, Program.chance_bind]
  refine (congrArg _ (funext fun outcome => ?_)).trans (PMF.bind_pure _)
  rcases outcome with _ | (error | generated)
  · rfl
  · rfl
  · change ((call (.setPassword service name generated) >>= _ : Action T _ _).run).chance odds = _
    rw [run_call_bind, Program.chance_ask_pure (h.stores generated)]
    rfl

theorem fairChance_generatedLen : fairChance generatedLen = ((74 : ℝ≥0∞) ^ 40)⁻¹ := by
  have hlength : passwordChars.length = 74 := by decide
  rw [fairChance, hlength, ENNReal.inv_pow]
  rfl

/-- What a call for a password says of a text, where all outcomes are counted. -/
structure FairlyMade (odds : Odds (Call T) (Reply T)) (name password : Text) : Prop where
  chance : (getOrCreate name : Action T _ _).run.chance odds (some (.ok password)) =
    if Generated generatedLen password then ((74 : ℝ≥0∞) ^ 40)⁻¹ else 0
  unguessable : (getOrCreate name : Action T _ _).run.chance odds (some (.ok password)) ≤
    ((2 : ℝ≥0∞) ^ 248)⁻¹
  returned_iff : (∃ trace, Run (getOrCreate name : Action T _ _).run trace (some (.ok password)) ∧
    ∀ event ∈ trace, Likely odds event) ↔ Generated generatedLen password

/-- On first use each text of forty of the characters is returned with the one chance, no
other text is ever returned, and no guess is better than one in two to the power of 248. -/
theorem first_use_fair {name : Text} (h : FirstUse odds name) (password : Text) :
    FairlyMade odds name password := by
  have hchance : (getOrCreate name : Action T _ _).run.chance odds (some (.ok password)) =
      if Generated generatedLen password then ((74 : ℝ≥0∞) ^ 40)⁻¹ else 0 := by
    rw [chance_getOrCreate h, generate, chance_generateChars h.fair, fairChance_generatedLen]
  refine ⟨hchance, ?_, ?_⟩
  · rw [hchance]
    split
    · rw [ENNReal.inv_le_inv]
      norm_cast
    · exact bot_le
  · rw [← chance_ne_zero_iff, hchance]
    have hpositive : ((74 : ℝ≥0∞) ^ 40)⁻¹ ≠ 0 :=
      ENNReal.inv_ne_zero.2 (ENNReal.pow_ne_top (ENNReal.natCast_ne_top 74))
    exact ite_ne_right_iff.trans (and_iff_left hpositive)

noncomputable def emptyOdds : Odds (Call Nat) (Reply Nat)
  | .randomIndex bound => if h : bound = 0 then none else
      some (@PMF.uniformOfFintype (Fin bound) _ ⟨⟨0, Nat.pos_of_ne_zero h⟩⟩)
  | .keyringEntry _ _ => some (PMF.pure (.ok ()))
  | .getPassword _ _ => some (PMF.pure (.error .noEntry))
  | .setPassword _ _ _ => some (PMF.pure (.ok ()))
  | _ => none

theorem fair_emptyOdds : Fair emptyOdds := by
  simp only [Fair, emptyOdds, fairDraw]
  exact dif_neg (NeZero.ne passwordChars.length)

theorem first_use_fair_sample :
    FairlyMade emptyOdds "custodly-working-vault".toList (.replicate 40 '7') :=
  first_use_fair ⟨fair_emptyOdds, rfl, rfl, fun _ => rfl⟩ _

end Custodly.Vault
