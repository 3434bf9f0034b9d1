import Custodly.Library.Interaction
import Mathlib.Data.List.Induction

/-! The state a program acts on.  A step relation says which reply a request may get in
a state and which state follows; an execution is a run whose events the relation allows
one after the other. -/
namespace Custodly.Library.Surroundings
open Interaction

variable {Request : Type} {Reply : Request → Type} {α β ε σ : Type}

abbrev Step (Request : Type) (Reply : Request → Type) (σ : Type) :=
  σ → Event Request Reply → σ → Prop

/-- The events of a trace happen one after the other, from the first state to the last. -/
def Follows (step : Step Request Reply σ) : σ → List (Event Request Reply) → σ → Prop
  | s, [], s' => s = s'
  | s, event :: rest, s' => ∃ next, step s event next ∧ Follows step next rest s'

theorem follows_append {step : Step Request Reply σ} {first second : List (Event Request Reply)}
    {s s' : σ} : Follows step s (first ++ second) s' ↔
      ∃ between, Follows step s first between ∧ Follows step between second s' := by
  induction first generalizing s with
  | nil => simp [Follows]
  | cons event rest ih =>
    simp only [List.cons_append, Follows, ih]
    constructor
    · rintro ⟨next, hstep, between, h, h'⟩
      exact ⟨between, ⟨next, hstep, h⟩, h'⟩
    · rintro ⟨between, ⟨next, hstep, h⟩, h'⟩
      exact ⟨next, hstep, between, h, h'⟩

theorem Follows.step_of_mem {step : Step Request Reply σ} {trace : List (Event Request Reply)}
    {s s' : σ} (h : Follows step s trace s') {event : Event Request Reply}
    (hevent : event ∈ trace) : ∃ before after, step before event after := by
  obtain ⟨front, rest, rfl⟩ := List.append_of_mem hevent
  obtain ⟨before, -, after, hstep, -⟩ := follows_append.1 h
  exact ⟨before, after, hstep⟩

/-- The run invariant rule: what every step of a trace keeps, the whole trace keeps. -/
theorem Follows.invariant {step : Step Request Reply σ} {kept : σ → Prop}
    {allowed : Request → Prop}
    (stepKept : ∀ s event s', allowed event.1 → step s event s' → kept s → kept s')
    {trace : List (Event Request Reply)} (hallowed : ∀ event ∈ trace, allowed event.1) {s s' : σ}
    (h : Follows step s trace s') (hs : kept s) : kept s' := by
  induction trace generalizing s with
  | nil => exact h ▸ hs
  | cons event rest ih =>
    obtain ⟨next, hstep, hrest⟩ := h
    rw [List.forall_mem_cons] at hallowed
    exact ih hallowed.2 hrest (stepKept s event next hallowed.1 hstep hs)

/-- Every step of an execution is taken in a state that admits it. -/
def EveryStep (step : Step Request Reply σ) (admits : σ → Event Request Reply → Prop) (s : σ)
    (trace : List (Event Request Reply)) (s' : σ) : Prop :=
  ∀ before event after between, trace = before ++ event :: after →
    Follows step s before between → Follows step between (event :: after) s' →
    admits between event

def EveryState (step : Step Request Reply σ) (good : σ → Prop) (s : σ)
    (trace : List (Event Request Reply)) (s' : σ) : Prop :=
  ∀ before after between, trace = before ++ after →
    Follows step s before between → Follows step between after s' → good between

/-- The run invariant rule where the invariant counts the events so far, and is kept by the
steps that are admitted. -/
theorem EveryStep.invariant {step : Step Request Reply σ}
    {admits : σ → Event Request Reply → Prop} {kept : List (Event Request Reply) → σ → Prop}
    (stepKept : ∀ past s event s', admits s event → step s event s' → kept past s →
      kept (past ++ [event]) s') {s s' : σ} {trace : List (Event Request Reply)}
    (h : EveryStep step admits s trace s') (hs : kept [] s)
    {before after : List (Event Request Reply)} {between : σ} (htrace : trace = before ++ after)
    (hbefore : Follows step s before between) (hafter : Follows step between after s') :
    kept before between := by
  induction before using List.reverseRecOn generalizing after between with
  | nil =>
    rw [← show s = between from hbefore]
    exact hs
  | append_singleton before event ih =>
    rw [List.append_assoc, List.singleton_append] at htrace
    obtain ⟨earlier, hearlier, next, hstep, hnext⟩ := follows_append.1 hbefore
    rw [show next = between from hnext] at hstep
    have hrest : Follows step earlier (event :: after) s' := ⟨between, hstep, hafter⟩
    exact stepKept before earlier event between (h before event after earlier htrace hearlier hrest)
      hstep (ih htrace hearlier hrest)

theorem everyStep_trivial {step : Step Request Reply σ} {s s' : σ}
    {trace : List (Event Request Reply)} : EveryStep step (fun _ _ => True) s trace s' :=
  fun _ _ _ _ _ _ _ => trivial

def Exec (step : Step Request Reply σ) (s : σ) (program : Program Request Reply α)
    (value : Option α) (s' : σ) : Prop :=
  ∃ trace, Run program trace value ∧ Follows step s trace s'

namespace Exec

variable {step step' : Step Request Reply σ} {s s' : σ}

theorem mono (weaker : ∀ s event s', step s event s' → step' s event s')
    {program : Program Request Reply α} {value : Option α}
    (h : Exec step s program value s') : Exec step' s program value s' := by
  obtain ⟨trace, run, hfollows⟩ := h
  refine ⟨trace, run, ?_⟩
  clear run
  induction trace generalizing s with
  | nil => exact hfollows
  | cons event rest ih =>
    obtain ⟨next, hstep, hrest⟩ := hfollows
    exact ⟨next, weaker s event next hstep, ih hrest⟩

theorem invariant {P : σ → Prop} {allowed : Request → Prop}
    (stepKept : ∀ s event s', allowed event.1 → step s event s' → P s → P s')
    {program : Program Request Reply α} (issues : program.Issues allowed) {value : Option α}
    (h : Exec step s program value s') (hs : P s) : P s' := by
  obtain ⟨trace, run, hfollows⟩ := h
  exact hfollows.invariant stepKept (run.issues issues) hs

@[simp] theorem done_iff {a : α} {value : Option α} :
    Exec step s (Program.done a) value s' ↔ value = some a ∧ s = s' := by
  simp only [Exec, Run.done_iff]
  constructor
  · rintro ⟨_, ⟨rfl, hvalue⟩, h⟩
    exact ⟨hvalue, h⟩
  · rintro ⟨hvalue, h⟩
    exact ⟨[], ⟨rfl, hvalue⟩, h⟩

theorem ask_iff {r : Request} {rest : Reply r → Program Request Reply α} {value : Option α} :
    Exec step s (.ask r rest) value s' ↔
      (∃ reply next, step s ⟨r, reply⟩ next ∧ Exec step next (rest reply) value s') ∨
        (IsEmpty (Reply r) ∧ value = none ∧ s = s') := by
  simp only [Exec, Run.ask_iff]
  constructor
  · rintro ⟨_, ⟨reply, tail, rfl, h⟩ | ⟨empty, rfl, hvalue⟩, hfollows⟩
    · obtain ⟨next, hstep, hfollows⟩ := hfollows
      exact .inl ⟨reply, next, hstep, tail, h, hfollows⟩
    · exact .inr ⟨empty, hvalue, hfollows⟩
  · rintro (⟨reply, next, hstep, tail, h, hfollows⟩ | ⟨empty, hvalue, hfollows⟩)
    · exact ⟨_, .inl ⟨reply, tail, rfl, h⟩, next, hstep, hfollows⟩
    · exact ⟨[], .inr ⟨empty, rfl, hvalue⟩, hfollows⟩

theorem bind_iff {program : Program Request Reply α} {next : α → Program Request Reply β}
    {value : Option β} : Exec step s (program >>= next) value s' ↔
      (∃ a between, Exec step s program (some a) between ∧ Exec step between (next a) value s') ∨
        (value = none ∧ Exec step s program none s') := by
  simp only [Exec, Run.bind_iff]
  constructor
  · rintro ⟨_, ⟨first, a, second, rfl, h, h'⟩ | ⟨rfl, h⟩, hfollows⟩
    · obtain ⟨between, hfirst, hsecond⟩ := follows_append.1 hfollows
      exact .inl ⟨a, between, ⟨first, h, hfirst⟩, second, h', hsecond⟩
    · exact .inr ⟨rfl, _, h, hfollows⟩
  · rintro (⟨a, between, ⟨first, h, hfirst⟩, second, h', hsecond⟩ | ⟨rfl, trace, h, hfollows⟩)
    · exact ⟨_, .inl ⟨first, a, second, rfl, h, h'⟩,
        follows_append.2 ⟨between, hfirst, hsecond⟩⟩
    · exact ⟨trace, .inr ⟨rfl, h⟩, hfollows⟩

theorem map_iff {program : Program Request Reply α} {f : α → β} {value : Option β} :
    Exec step s (f <$> program) value s' ↔
      ∃ value', Exec step s program value' s' ∧ value = value'.map f := by
  rw [map_eq_pure_bind, bind_iff]
  constructor
  · rintro (⟨a, between, h, h'⟩ | ⟨rfl, h⟩)
    · obtain ⟨rfl, rfl⟩ := done_iff.1 h'
      exact ⟨some a, h, rfl⟩
    · exact ⟨none, h, rfl⟩
  · rintro ⟨value' | a, h, rfl⟩
    · exact .inr ⟨rfl, h⟩
    · exact .inl ⟨a, s', h, done_iff.2 ⟨rfl, rfl⟩⟩

theorem tryBind_iff {attempt : ExceptT ε (Program Request Reply) α}
    {next : α → ExceptT ε (Program Request Reply) β} {value : Option (Except ε β)} :
    Exec step s (attempt >>= next).run value s' ↔
      (∃ a between, Exec step s attempt.run (some (.ok a)) between ∧
        Exec step between (next a).run value s') ∨
      (∃ e, value = some (.error e) ∧ Exec step s attempt.run (some (.error e)) s') ∨
        (value = none ∧ Exec step s attempt.run none s') := by
  rw [ExceptT.run_bind, bind_iff]
  constructor
  · rintro (⟨a | a, between, h, h'⟩ | h)
    · obtain ⟨rfl, rfl⟩ := done_iff.1 h'
      exact .inr (.inl ⟨a, rfl, h⟩)
    · exact .inl ⟨a, between, h, h'⟩
    · exact .inr (.inr h)
  · rintro (⟨a, between, h, h'⟩ | ⟨e, rfl, h⟩ | h)
    · exact .inl ⟨.ok a, between, h, h'⟩
    · exact .inl ⟨.error e, s', h, done_iff.2 ⟨rfl, rfl⟩⟩
    · exact .inr h

end Exec

end Custodly.Library.Surroundings
