import Custodly.Library.Surroundings
import Mathlib.Data.List.Pairwise

/-! Programs that follow an abstract machine.  The machine takes a step with each event of a
program, whatever the reply, and is where a value may be returned when one is: every run of
the program is then a run of the machine, and what holds of those holds of the program. -/
namespace Custodly.Library.Interaction
open Surroundings

variable {Request : Type} {Reply : Request → Type} {α β ε ε' σ : Type}

namespace Program

variable {step : Step Request Reply σ}

/-- From a state on, the machine can go along with the program. -/
def Refines (step : Step Request Reply σ) (goal : σ → α → Prop) :
    Program Request Reply α → σ → Prop
  | .done value, s => goal s value
  | .ask r rest, s => ∀ reply, ∃ s', step s ⟨r, reply⟩ s' ∧ (rest reply).Refines step goal s'

@[simp] theorem refines_done {goal : σ → α → Prop} {value : α} {s : σ} :
    (Program.done value : Program Request Reply α).Refines step goal s ↔ goal s value := Iff.rfl

@[simp] theorem refines_ask {goal : σ → α → Prop} {r : Request}
    {rest : Reply r → Program Request Reply α} {s : σ} :
    (Program.ask r rest).Refines step goal s ↔
      ∀ reply, ∃ s', step s ⟨r, reply⟩ s' ∧ (rest reply).Refines step goal s' := Iff.rfl

/-- The sequencing rule: the second part goes on from where the machine is then. -/
theorem refines_bind {goal : σ → β → Prop} {program : Program Request Reply α}
    {next : α → Program Request Reply β} {s : σ} :
    (program >>= next).Refines step goal s ↔
      program.Refines step (fun s a => (next a).Refines step goal s) s := by
  induction program generalizing s with
  | done a => exact Iff.rfl
  | ask r rest ih => simp only [ask_bind, refines_ask, ih]

def Proceeds (next : σ → α → Prop) (goal : σ → Except ε β → Prop) : σ → Except ε α → Prop
  | s, .ok a => next s a
  | s, .error e => goal s (.error e)

theorem refines_tryBind {goal : σ → Except ε β → Prop}
    {attempt : ExceptT ε (Program Request Reply) α}
    {next : α → ExceptT ε (Program Request Reply) β} {s : σ} :
    (attempt >>= next).run.Refines step goal s ↔
      attempt.run.Refines step (Proceeds (fun s a => (next a).run.Refines step goal s) goal) s := by
  rw [ExceptT.run_bind, refines_bind]
  apply iff_of_eq
  congr 1
  funext s outcome
  cases outcome <;> rfl

theorem refines_map {goal : σ → β → Prop} {program : Program Request Reply α} {f : α → β} {s : σ} :
    (f <$> program).Refines step goal s ↔ program.Refines step (fun s a => goal s (f a)) s := by
  rw [map_eq_pure_bind, refines_bind]
  exact Iff.rfl

theorem Refines.mono {goal goal' : σ → α → Prop} {program : Program Request Reply α} {s : σ}
    (h : program.Refines step goal s) (hgoal : ∀ s a, goal s a → goal' s a) :
    program.Refines step goal' s := by
  induction program generalizing s with
  | done a => exact hgoal s a h
  | ask r rest ih =>
    intro reply
    obtain ⟨s', hstep, hrest⟩ := h reply
    exact ⟨s', hstep, ih reply hrest⟩

theorem Issues.refines {allowed : Request → Prop} {goal : σ → α → Prop}
    {program : Program Request Reply α} {s : σ} (issues : program.Issues allowed)
    (hstep : ∀ event : Event Request Reply, allowed event.1 → step s event s)
    (hgoal : ∀ a, goal s a) : program.Refines step goal s := by
  induction program with
  | done a => exact hgoal a
  | ask r rest ih => exact fun reply => ⟨s, hstep ⟨r, reply⟩ issues.1, ih reply (issues.2 reply)⟩

end Program

/-- Every run of a program is one of the machine, and ends where its value may be returned. -/
theorem Run.refines {step : Step Request Reply σ} {goal : σ → α → Prop}
    {program : Program Request Reply α} {trace : List (Event Request Reply)} {value : Option α}
    (run : Run program trace value) {s : σ} (h : program.Refines step goal s) :
    ∃ s', Follows step s trace s' ∧ ∀ a, value = some a → goal s' a := by
  induction run generalizing s with
  | done a =>
    refine ⟨s, rfl, fun b hb => ?_⟩
    rw [← Option.some.inj hb]
    exact h
  | halt empty => exact ⟨s, rfl, fun a ha => by cases ha⟩
  | ask reply tail ih =>
    obtain ⟨next, hstep, hrest⟩ := h reply
    obtain ⟨s', hfollows, hvalue⟩ := ih hrest
    exact ⟨s', ⟨next, hstep, hfollows⟩, hvalue⟩

end Custodly.Library.Interaction

namespace Custodly.Library.Surroundings
open Interaction

variable {Request : Type} {Reply : Request → Type} {σ κ : Type}

theorem Follows.climbs {step : Step Request Reply σ} {height : σ → Nat}
    {mark : Event Request Reply → Option κ} {rank : κ → Nat}
    (hstep : ∀ s event s', step s event s' → height s ≤ height s' ∧
      ∀ k ∈ mark event, height s ≤ rank k ∧ rank k < height s')
    {trace : List (Event Request Reply)} {s s' : σ} (h : Follows step s trace s') :
    (trace.filterMap mark).Pairwise (fun k k' => rank k < rank k') ∧ height s ≤ height s' ∧
      ∀ k ∈ trace.filterMap mark, height s ≤ rank k := by
  induction trace generalizing s with
  | nil =>
    rw [show s = s' from h]
    simp
  | cons event rest ih =>
    obtain ⟨next, hnext, hrest⟩ := h
    obtain ⟨hup, hmarked⟩ := hstep s event next hnext
    obtain ⟨hsorted, hlast, hlater⟩ := ih hrest
    refine ⟨?_, Nat.le_trans hup hlast, ?_⟩
    · cases hmark : mark event with
      | none => rwa [List.filterMap_cons_none hmark]
      | some k =>
        rw [List.filterMap_cons_some hmark, List.pairwise_cons]
        exact ⟨fun k' hk' => Nat.lt_of_lt_of_le (hmarked k hmark).2 (hlater k' hk'), hsorted⟩
    · intro k hk
      obtain ⟨found, hfound, hmark⟩ := List.mem_filterMap.1 hk
      rcases List.mem_cons.1 hfound with rfl | hfound
      · exact (hmarked k hmark).1
      · exact Nat.le_trans hup (hlater k (List.mem_filterMap.2 ⟨found, hfound, hmark⟩))

theorem Follows.eq_of_mark {step : Step Request Reply σ} {height : σ → Nat}
    {mark : Event Request Reply → Option κ} {rank : κ → Nat}
    (hstep : ∀ s event s', step s event s' → height s ≤ height s' ∧
      ∀ k ∈ mark event, height s ≤ rank k ∧ rank k < height s')
    {trace : List (Event Request Reply)} {s s' : σ} (h : Follows step s trace s')
    {event other : Event Request Reply} (hevent : event ∈ trace) (hother : other ∈ trace) {k : κ}
    (hmark : mark event = some k) (hmark' : mark other = some k) : event = other := by
  by_contra hne
  let apart (event other : Event Request Reply) : Prop := mark event = some k → mark other ≠ some k
  have hsymm : Std.Symm apart := ⟨fun _ _ h hother hevent => h hevent hother⟩
  have hapart : trace.Pairwise apart := by
    refine (List.pairwise_filterMap.1 (h.climbs hstep).1).imp ?_
    intro event other hlt hevent hother
    exact Nat.lt_irrefl _ (hlt k hevent k hother)
  exact hapart.forall hevent hother hne hmark hmark'

theorem Follows.tells {step : Step Request Reply σ} {told : σ → List κ}
    {tells : Event Request Reply → Option κ}
    (hstep : ∀ s event s', step s event s' → told s' = told s ++ (tells event).toList)
    {trace : List (Event Request Reply)} {s s' : σ} (h : Follows step s trace s') :
    told s' = told s ++ trace.filterMap tells := by
  induction trace generalizing s with
  | nil =>
    rw [show s = s' from h]
    simp
  | cons event rest ih =>
    obtain ⟨next, hnext, hrest⟩ := h
    rw [ih hrest, hstep s event next hnext, List.append_assoc]
    congr 1
    cases htold : tells event with
    | none => rw [List.filterMap_cons_none htold, Option.toList_none, List.nil_append]
    | some line => rw [List.filterMap_cons_some htold, Option.toList_some, List.singleton_append]

end Custodly.Library.Surroundings
