import Custodly.Library.Surroundings
import Mathlib.Logic.Function.Basic

/-! A map in which a key is given a value once.  Any number of parties record and look up; of
those who record under one key at most one succeeds, and all who look it up are told the
same. -/
namespace Custodly.Library.WriteOnce
open Interaction Surroundings

variable {ι K V : Type} [DecidableEq K]

inductive Op (K V : Type) where
  | recorded (key : K) (value : V)
  | looked (key : K) (value : V)

abbrev Log (ι K V : Type) := List (Event (ι × Op K V) fun _ => Unit)

/-- A key that has a value is not given another; what is looked up is there. -/
def Op.Acts (m : K → Option V) : Op K V → (K → Option V) → Prop
  | .recorded key value, m' => m key = none ∧ m' = Function.update m key (some value)
  | .looked key value, m' => m key = some value ∧ m' = m

def register : Step (ι × Op K V) (fun _ => Unit) (K → Option V) :=
  fun m event m' => event.1.2.Acts m m'

variable {m m' : K → Option V} {log : Log ι K V} {i j : ι} {key : K} {value other : V}

theorem Op.Acts.kept {op : Op K V} (h : op.Acts m m') (hm : m key = some value) :
    m' key = some value := by
  cases op with
  | recorded key' value' =>
    obtain ⟨hfree, hnext⟩ := h
    have hother : key ≠ key' := by
      rintro rfl
      rw [hfree] at hm
      cases hm
    rwa [hnext, Function.update_of_ne hother]
  | looked key' value' => rwa [h.2]

theorem kept_of_follows (h : Follows register m log m') (hm : m key = some value) :
    m' key = some value := by
  induction log generalizing m with
  | nil =>
    rw [← show m = m' from h]
    exact hm
  | cons event rest ih =>
    obtain ⟨next, hstep, hrest⟩ := h
    exact ih hrest (hstep.kept hm)

theorem held_of_mem (h : Follows register m log m')
    (hmem : ⟨(i, .recorded key value), ()⟩ ∈ log ∨ ⟨(i, .looked key value), ()⟩ ∈ log) :
    m' key = some value := by
  rcases hmem with hmem | hmem
  · obtain ⟨before, after, rfl⟩ := List.append_of_mem hmem
    obtain ⟨between, -, next, ⟨-, hnext⟩, hrest⟩ := follows_append.1 h
    exact kept_of_follows hrest (by rw [hnext, Function.update_self])
  · obtain ⟨before, after, rfl⟩ := List.append_of_mem hmem
    obtain ⟨between, -, next, ⟨hthere, hnext⟩, hrest⟩ := follows_append.1 h
    exact kept_of_follows hrest (by rw [hnext, hthere])

theorem free_of_recorded (h : Follows register m log m')
    (hmem : ⟨(i, .recorded key value), ()⟩ ∈ log) : m key = none := by
  obtain ⟨before, after, rfl⟩ := List.append_of_mem hmem
  obtain ⟨between, hbefore, next, ⟨hfree, -⟩, -⟩ := follows_append.1 h
  cases hm : m key with
  | none => rfl
  | some first =>
    rw [kept_of_follows hbefore hm] at hfree
    cases hfree

/-- A key is recorded by one party at most. -/
theorem recorded_once (h : Follows register m log m')
    (hi : ⟨(i, .recorded key value), ()⟩ ∈ log) (hj : ⟨(j, .recorded key other), ()⟩ ∈ log) :
    i = j ∧ value = other := by
  induction log generalizing m with
  | nil => cases hi
  | cons event rest ih =>
    obtain ⟨next, hstep, hrest⟩ := h
    -- once recorded, the key is taken for the rest of the log
    have htaken {other : ι} {stored late : V} (hstored : next key = some stored)
        (hlate : ⟨(other, .recorded key late), ()⟩ ∈ rest) : False := by
      obtain ⟨before, after, rfl⟩ := List.append_of_mem hlate
      obtain ⟨between, hbefore, _, ⟨hfree, -⟩, -⟩ := follows_append.1 hrest
      rw [kept_of_follows hbefore hstored] at hfree
      cases hfree
    rw [List.mem_cons] at hi hj
    rcases hi with rfl | hi
    · have hnext : next key = some value := by rw [hstep.2, Function.update_self]
      rcases hj with heq | hj
      · simp only [Sigma.mk.injEq, Prod.mk.injEq, Op.recorded.injEq, true_and] at heq
        exact ⟨heq.1.1.symm, heq.1.2.symm⟩
      · exact (htaken hnext hj).elim
    · rcases hj with rfl | hj
      · have hnext : next key = some other := by rw [hstep.2, Function.update_self]
        exact (htaken hnext hi).elim
      · exact ih hrest hi hj

theorem origin_of_held (h : Follows register m log m') (hheld : m' key = some value) :
    m key = some value ∨ ∃ i, ⟨(i, .recorded key value), ()⟩ ∈ log := by
  induction log generalizing m with
  | nil =>
    rw [← show m = m' from h] at hheld
    exact .inl hheld
  | cons event rest ih =>
    obtain ⟨next, hstep, hrest⟩ := h
    rcases ih hrest with hnext | ⟨i, hmem⟩
    · obtain ⟨⟨party, op⟩, _⟩ := event
      cases op with
      | recorded key' value' =>
        obtain ⟨-, hupdate⟩ := hstep
        rw [hupdate] at hnext
        by_cases hkey : key = key'
        · rw [hkey, Function.update_self, Option.some.injEq] at hnext
          rw [hkey, ← hnext]
          exact .inr ⟨party, by simp⟩
        · rw [Function.update_of_ne hkey] at hnext
          exact .inl hnext
      | looked key' value' =>
        rw [hstep.2] at hnext
        exact .inl hnext
    · exact .inr ⟨i, List.mem_cons_of_mem _ hmem⟩

end Custodly.Library.WriteOnce
