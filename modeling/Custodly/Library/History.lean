import Custodly.Library.Interaction

/-! Rules about the order of requests.  The events so far are carried along a program as a
ghost: a rule says which request may be issued after which history, and a goal says which
value may be returned after which history. -/
namespace Custodly.Library.Interaction

variable {Request : Type} {Reply : Request → Type} {α β ε ε' : Type}

abbrev History (Request : Type) (Reply : Request → Type) := List (Event Request Reply)

namespace Program

variable {rule rule' : History Request Reply → Request → Prop}

/-- Continuing from a history, every request keeps the rule and every value the goal. -/
def Obeys (rule : History Request Reply → Request → Prop)
    (goal : History Request Reply → α → Prop) :
    Program Request Reply α → History Request Reply → Prop
  | .done value, past => goal past value
  | .ask r rest, past => rule past r ∧ ∀ reply, (rest reply).Obeys rule goal (past ++ [⟨r, reply⟩])

@[simp] theorem obeys_done {goal : History Request Reply → α → Prop} {value : α}
    {past : History Request Reply} :
    (Program.done value).Obeys rule goal past ↔ goal past value := Iff.rfl

@[simp] theorem obeys_ask {goal : History Request Reply → α → Prop} {r : Request}
    {rest : Reply r → Program Request Reply α} {past : History Request Reply} :
    (Program.ask r rest).Obeys rule goal past ↔
      rule past r ∧ ∀ reply, (rest reply).Obeys rule goal (past ++ [⟨r, reply⟩]) := Iff.rfl

/-- The sequencing rule: the first part is to end where the second can begin. -/
theorem obeys_bind {goal : History Request Reply → β → Prop} {program : Program Request Reply α}
    {next : α → Program Request Reply β} {past : History Request Reply} :
    (program >>= next).Obeys rule goal past ↔
      program.Obeys rule (fun past a => (next a).Obeys rule goal past) past := by
  induction program generalizing past with
  | done a => exact Iff.rfl
  | ask r rest ih => simp only [ask_bind, obeys_ask, ih]

/-- The goal for a first part that can fail: go on with a value, end with an error. -/
def GoesOn (next : History Request Reply → α → Prop)
    (goal : History Request Reply → Except ε β → Prop) :
    History Request Reply → Except ε α → Prop
  | past, .ok a => next past a
  | past, .error e => goal past (.error e)

theorem obeys_tryBind {goal : History Request Reply → Except ε β → Prop}
    {attempt : ExceptT ε (Program Request Reply) α}
    {next : α → ExceptT ε (Program Request Reply) β} {past : History Request Reply} :
    (attempt >>= next).run.Obeys rule goal past ↔
      attempt.run.Obeys rule (GoesOn (fun past a => (next a).run.Obeys rule goal past) goal)
        past := by
  rw [ExceptT.run_bind, obeys_bind]
  apply iff_of_eq
  congr 1
  funext past outcome
  cases outcome <;> rfl

theorem obeys_map {goal : History Request Reply → β → Prop} {program : Program Request Reply α}
    {f : α → β} {past : History Request Reply} :
    (f <$> program).Obeys rule goal past ↔
      program.Obeys rule (fun past a => goal past (f a)) past := by
  rw [map_eq_pure_bind, obeys_bind]
  exact Iff.rfl

theorem Obeys.mono {goal goal' : History Request Reply → α → Prop}
    {program : Program Request Reply α} {past : History Request Reply}
    (h : program.Obeys rule goal past) (hrule : ∀ past r, rule past r → rule' past r)
    (hgoal : ∀ past a, goal past a → goal' past a) : program.Obeys rule' goal' past := by
  induction program generalizing past with
  | done a => exact hgoal past a h
  | ask r rest ih => exact ⟨hrule past r h.1, fun reply => ih reply (h.2 reply)⟩

theorem Obeys.and {goal goal' : History Request Reply → α → Prop}
    {program : Program Request Reply α} {past : History Request Reply}
    (h : program.Obeys rule goal past) (h' : program.Obeys rule' goal' past) :
    program.Obeys (fun past r => rule past r ∧ rule' past r)
      (fun past a => goal past a ∧ goal' past a) past := by
  induction program generalizing past with
  | done a => exact ⟨h, h'⟩
  | ask r rest ih => exact ⟨⟨h.1, h'.1⟩, fun reply => ih reply (h.2 reply) (h'.2 reply)⟩

theorem obeys_of_forall {goal : History Request Reply → α → Prop}
    (hrule : ∀ past r, rule past r) (hgoal : ∀ past a, goal past a)
    (program : Program Request Reply α) (past : History Request Reply) :
    program.Obeys rule goal past := by
  induction program generalizing past with
  | done a => exact hgoal past a
  | ask r rest ih => exact ⟨hrule past r, fun reply => ih reply _⟩

def Keeps (rule : History Request Reply → Request → Prop) (program : Program Request Reply α) :
    Prop :=
  ∀ past, program.Obeys rule (fun _ _ => True) past

theorem keeps_done (a : α) : (Program.done a : Program Request Reply α).Keeps rule :=
  fun _ => trivial

theorem Keeps.bind {program : Program Request Reply α} {next : α → Program Request Reply β}
    (first : program.Keeps rule) (rest : ∀ a, (next a).Keeps rule) :
    (program >>= next).Keeps rule := fun past =>
  obeys_bind.2 ((first past).mono (fun _ _ h => h) fun past a _ => rest a past)

theorem Keeps.tryBind {attempt : ExceptT ε (Program Request Reply) α}
    {next : α → ExceptT ε (Program Request Reply) β} (first : attempt.run.Keeps rule)
    (rest : ∀ a, (next a).run.Keeps rule) : (attempt >>= next).run.Keeps rule := by
  rw [ExceptT.run_bind]
  refine first.bind fun outcome past => ?_
  cases outcome with
  | ok a => exact rest a past
  | error e => exact trivial

theorem Issues.keeps {allowed : Request → Prop} {program : Program Request Reply α}
    (issues : program.Issues allowed) (h : ∀ past r, allowed r → rule past r) :
    program.Keeps rule := by
  intro past
  induction program generalizing past with
  | done a => exact trivial
  | ask r rest ih => exact ⟨h past r issues.1, fun reply => ih reply (issues.2 reply) _⟩

theorem Issues.obeys {allowed : Request → Prop} {goal : History Request Reply → α → Prop}
    {program : Program Request Reply α} {past : History Request Reply}
    (issues : program.Issues allowed)
    (h : ∀ added : History Request Reply, (∀ event ∈ added, allowed event.1) →
      (∀ r, allowed r → rule (past ++ added) r) ∧ ∀ a, goal (past ++ added) a) :
    program.Obeys rule goal past := by
  induction program generalizing past with
  | done a =>
    have := (h [] (by simp)).2 a
    rwa [List.append_nil] at this
  | ask r rest ih =>
    refine ⟨?_, fun reply => ih reply (issues.2 reply) fun added hadded => ?_⟩
    · have := (h [] (by simp)).1 r issues.1
      rwa [List.append_nil] at this
    · have := h (⟨r, reply⟩ :: added) (by
        rw [List.forall_mem_cons]
        exact ⟨issues.1, hadded⟩)
      rwa [List.append_assoc, List.singleton_append]

end Program

/-- In a run of a program that obeys, every request was issued under the rule, a returned
value meets the goal, and a run that never returned ended in a request under the rule. -/
theorem Run.obeys {rule : History Request Reply → Request → Prop}
    {goal : History Request Reply → α → Prop} {program : Program Request Reply α}
    {trace : History Request Reply} {value : Option α} (run : Run program trace value)
    {past : History Request Reply} (h : program.Obeys rule goal past) :
    (∀ before event after, trace = before ++ event :: after → rule (past ++ before) event.1) ∧
    (∀ a, value = some a → goal (past ++ trace) a) ∧
    (value = none → ∃ r, IsEmpty (Reply r) ∧ rule (past ++ trace) r) := by
  induction run generalizing past with
  | done a => simpa using h
  | halt empty =>
    refine ⟨by simp, by simp, fun _ => ⟨_, empty, ?_⟩⟩
    rw [List.append_nil]
    exact h.1
  | ask reply tail ih =>
    rename_i r rest trace value
    obtain ⟨hevents, hvalue, hnone⟩ := ih (h.2 reply)
    have happend : ∀ events : History Request Reply,
        past ++ [⟨r, reply⟩] ++ events = past ++ ⟨r, reply⟩ :: events := by
      intro events
      rw [List.append_assoc, List.singleton_append]
    refine ⟨fun before event after heq => ?_, fun a ha => ?_, fun hempty => ?_⟩
    · cases before with
      | nil =>
        rw [List.nil_append, List.cons.injEq] at heq
        rw [← heq.1, List.append_nil]
        exact h.1
      | cons first before =>
        rw [List.cons_append, List.cons.injEq] at heq
        rw [← heq.1, ← happend]
        exact hevents before event after heq.2
    · rw [← happend]
      exact hvalue a ha
    · rw [← happend]
      exact hnone hempty

end Custodly.Library.Interaction
