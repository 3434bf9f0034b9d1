import Mathlib.Logic.Relation
import Mathlib.Data.List.Basic
import Mathlib.Data.Option.Defs
import Mathlib.Tactic.Common

/-! Programs that ask their surroundings, their complete runs, and three ways to
reason about the runs: which requests a program can issue, how a state outside the
program evolves along a run, and how two programs proceed in step.  A request whose
reply type is empty never returns, which is how an abort is written. -/
namespace Custodly.Library.Interaction

inductive Program (Request : Type) (Reply : Request → Type) (α : Type) where
  | done : α → Program Request Reply α
  | ask : (request : Request) → (Reply request → Program Request Reply α) →
      Program Request Reply α

abbrev Event (Request : Type) (Reply : Request → Type) := (request : Request) × Reply request

variable {Request : Type} {Reply : Request → Type} {α β ε σ : Type}

namespace Program

def bind (program : Program Request Reply α) (next : α → Program Request Reply β) :
    Program Request Reply β :=
  match program with
  | .done value => next value
  | .ask request rest => .ask request fun reply => (rest reply).bind next

instance : Monad (Program Request Reply) where
  pure := .done
  bind := bind

def result : Program Request Reply α → Option α
  | .done value => some value
  | .ask _ _ => none

theorem result_eq_some_iff {program : Program Request Reply α} {value : α} :
    program.result = some value ↔ program = .done value := by
  cases program <;> simp [result]

def request (r : Request) : Program Request Reply (Reply r) :=
  .ask r .done

@[simp] theorem done_bind (value : α) (next : α → Program Request Reply β) :
    (Program.done value >>= next) = next value := rfl

@[simp] theorem ask_bind (r : Request) (rest : Reply r → Program Request Reply α)
    (next : α → Program Request Reply β) :
    (Program.ask r rest >>= next) = .ask r fun reply => rest reply >>= next := rfl

instance : LawfulMonad (Program Request Reply) := LawfulMonad.mk' _
  (by
    intro α program
    induction program with
    | done value => rfl
    | ask r rest ih => exact congrArg (Program.ask r) (funext ih))
  (fun _ _ => rfl)
  (by
    intro α β γ program first second
    induction program with
    | done value => rfl
    | ask r rest ih => exact congrArg (Program.ask r) (funext ih))

end Program

/-- A complete run: the requests with the replies they got, and the value returned.
There is no value when the run ended in a request that cannot be answered. -/
inductive Run : Program Request Reply α → List (Event Request Reply) → Option α → Prop
  | done (value : α) : Run (.done value) [] (some value)
  | halt {r : Request} {rest : Reply r → Program Request Reply α} (empty : IsEmpty (Reply r)) :
      Run (.ask r rest) [] none
  | ask {r : Request} {rest : Reply r → Program Request Reply α} (reply : Reply r)
      {trace : List (Event Request Reply)} {value : Option α}
      (tail : Run (rest reply) trace value) :
      Run (.ask r rest) (⟨r, reply⟩ :: trace) value

namespace Run

variable {program : Program Request Reply α} {next : α → Program Request Reply β}
  {trace : List (Event Request Reply)}

theorem done_iff {a : α} {value : Option α} :
    Run (Program.done a : Program Request Reply α) trace value ↔
      trace = [] ∧ value = some a := by
  constructor
  · intro h
    cases h
    exact ⟨rfl, rfl⟩
  · rintro ⟨rfl, rfl⟩
    exact .done a

theorem ask_iff {r : Request} {rest : Reply r → Program Request Reply α} {value : Option α} :
    Run (.ask r rest) trace value ↔
      (∃ reply tail, trace = ⟨r, reply⟩ :: tail ∧ Run (rest reply) tail value) ∨
        (IsEmpty (Reply r) ∧ trace = [] ∧ value = none) := by
  constructor
  · intro h
    cases h with
    | halt empty => exact .inr ⟨empty, rfl, rfl⟩
    | ask reply tail => exact .inl ⟨reply, _, rfl, tail⟩
  · rintro (⟨reply, tail, rfl, h⟩ | ⟨empty, rfl, rfl⟩)
    · exact .ask reply h
    · exact .halt empty

/-- A run of a sequence is a run of its first part followed by a run of the rest, or
a run in which the first part never returned. -/
theorem bind_iff {value : Option β} :
    Run (program >>= next) trace value ↔
      (∃ first a second, trace = first ++ second ∧ Run program first (some a) ∧
        Run (next a) second value) ∨ (value = none ∧ Run program trace none) := by
  induction program generalizing trace with
  | done a => simp [done_iff]
  | ask r rest ih =>
    simp only [Program.ask_bind, ask_iff, ih]
    constructor
    · rintro (⟨reply, tail, rfl, ⟨first, a, second, rfl, h, h'⟩ | ⟨rfl, h⟩⟩ | ⟨empty, rfl, rfl⟩)
      · exact .inl ⟨⟨r, reply⟩ :: first, a, second, rfl, .inl ⟨reply, first, rfl, h⟩, h'⟩
      · exact .inr ⟨rfl, .inl ⟨reply, tail, rfl, h⟩⟩
      · exact .inr ⟨rfl, .inr ⟨empty, rfl, trivial⟩⟩
    · rintro (⟨_, a, second, rfl, ⟨reply, first, rfl, h⟩ | ⟨_, _, hvalue⟩, h'⟩ |
        ⟨rfl, ⟨reply, tail, rfl, h⟩ | ⟨empty, rfl, -⟩⟩)
      · exact .inl ⟨reply, first ++ second, rfl, .inl ⟨first, a, second, rfl, h, h'⟩⟩
      · cases hvalue
      · exact .inl ⟨reply, tail, rfl, .inr ⟨rfl, h⟩⟩
      · exact .inr ⟨empty, rfl, rfl⟩

end Run

namespace Program

def play (answer : (r : Request) → Option (Reply r)) :
    Program Request Reply α → List (Event Request Reply) × Option α
  | .done value => ([], some value)
  | .ask r rest =>
      match answer r with
      | none => ([], none)
      | some reply =>
          let played := (rest reply).play answer
          (⟨r, reply⟩ :: played.1, played.2)

theorem run_play {answer : (r : Request) → Option (Reply r)} {program : Program Request Reply α}
    {a : α} (h : (program.play answer).2 = some a) :
    Run program (program.play answer).1 (some a) := by
  induction program with
  | done value =>
    cases h
    exact .done _
  | ask r rest ih =>
    unfold play at h ⊢
    cases hreply : answer r with
    | none => simp [hreply] at h
    | some reply =>
      simp only [hreply] at h ⊢
      exact .ask reply (ih reply h)

theorem answer_of_mem_play {answer : (r : Request) → Option (Reply r)}
    {program : Program Request Reply α} {event : Event Request Reply}
    (h : event ∈ (program.play answer).1) : answer event.1 = some event.2 := by
  induction program with
  | done value => cases h
  | ask r rest ih =>
    unfold play at h
    cases hreply : answer r with
    | none => simp [hreply] at h
    | some reply =>
      simp only [hreply, List.mem_cons] at h
      rcases h with rfl | h
      · exact hreply
      · exact ih reply h

/-- Every request the program can issue, whatever the replies, is allowed. -/
def Issues (allowed : Request → Prop) : Program Request Reply α → Prop
  | .done _ => True
  | .ask r rest => allowed r ∧ ∀ reply, (rest reply).Issues allowed

variable {allowed : Request → Prop}

@[simp] theorem issues_ask {r : Request} {rest : Reply r → Program Request Reply α} :
    (Program.ask r rest).Issues allowed ↔ allowed r ∧ ∀ reply, (rest reply).Issues allowed :=
  Iff.rfl

theorem Issues.bind {program : Program Request Reply α} {next : α → Program Request Reply β}
    (first : program.Issues allowed) (rest : ∀ a, (next a).Issues allowed) :
    (program >>= next).Issues allowed := by
  induction program with
  | done value => exact rest value
  | ask r k ih => exact ⟨first.1, fun reply => ih reply (first.2 reply)⟩

theorem Issues.tryBind {attempt : ExceptT ε (Program Request Reply) α}
    {next : α → ExceptT ε (Program Request Reply) β}
    (first : attempt.run.Issues allowed) (rest : ∀ a, (next a).run.Issues allowed) :
    (attempt >>= next).run.Issues allowed := by
  rw [ExceptT.run_bind]
  refine first.bind fun outcome => ?_
  cases outcome with
  | ok a => exact rest a
  | error e => exact trivial

theorem Issues.mono {allowed' : Request → Prop} {program : Program Request Reply α}
    (h : program.Issues allowed) (weaker : ∀ r, allowed r → allowed' r) :
    program.Issues allowed' := by
  induction program with
  | done value => exact trivial
  | ask r k ih => exact ⟨weaker r h.1, fun reply => ih reply (h.2 reply)⟩

end Program

theorem Run.issues {allowed : Request → Prop} {program : Program Request Reply α}
    {trace : List (Event Request Reply)} {value : Option α} (run : Run program trace value)
    (issues : program.Issues allowed) : ∀ event ∈ trace, allowed event.1 := by
  induction run with
  | done a => simp
  | halt empty => simp
  | ask reply tail ih =>
    simp only [List.mem_cons, forall_eq_or_imp]
    exact ⟨issues.1, ih (issues.2 reply)⟩

end Custodly.Library.Interaction
