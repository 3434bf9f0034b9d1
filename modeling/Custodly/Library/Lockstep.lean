import Custodly.Library.Interaction

/-! Two programs in step.  `same` says which requests an observer cannot tell apart and
`agree` which replies are taken to correspond; in-step programs whose surroundings
correspond issue indistinguishable requests to the end and return related values. -/
namespace Custodly.Library.Lockstep
open Interaction

variable {Request : Type} {Reply : Request → Type} {α β γ δ ε : Type}

structure Observer (Request : Type) (Reply : Request → Type) where
  same : Request → Request → Prop
  agree : Event Request Reply → Event Request Reply → Prop
  same_empty : ∀ {r r'}, same r r' → (IsEmpty (Reply r) ↔ IsEmpty (Reply r'))

/-- As long as the requests at one place are indistinguishable, so are their replies. -/
def Observer.Corresponding (observer : Observer Request Reply) :
    List (Event Request Reply) → List (Event Request Reply) → Prop
  | event :: rest, event' :: rest' => observer.same event.1 event'.1 →
      observer.agree event event' ∧ observer.Corresponding rest rest'
  | _, _ => True

theorem Observer.corresponding_of_forall {observer : Observer Request Reply}
    {trace trace' : List (Event Request Reply)}
    (h : ∀ event ∈ trace, ∀ event' ∈ trace', observer.same event.1 event'.1 →
      observer.agree event event') : observer.Corresponding trace trace' := by
  induction trace generalizing trace' with
  | nil => cases trace' <;> exact trivial
  | cons event rest ih =>
    cases trace' with
    | nil => exact trivial
    | cons event' rest' =>
      refine fun hsame => ⟨h event (by simp) event' (by simp) hsame, ih ?_⟩
      intro e he e' he'
      exact h e (List.mem_cons_of_mem _ he) e' (List.mem_cons_of_mem _ he')

inductive InStep (observer : Observer Request Reply) (related : α → β → Prop) :
    Program Request Reply α → Program Request Reply β → Prop
  | done {a : α} {b : β} (h : related a b) : InStep observer related (.done a) (.done b)
  | ask {r r' : Request} {rest : Reply r → Program Request Reply α}
      {rest' : Reply r' → Program Request Reply β} (same : observer.same r r')
      (h : ∀ x x', observer.agree ⟨r, x⟩ ⟨r', x'⟩ → InStep observer related (rest x) (rest' x')) :
      InStep observer related (.ask r rest) (.ask r' rest')

variable {observer : Observer Request Reply}

theorem InStep.bind {related : α → β → Prop} {related' : γ → δ → Prop}
    {p : Program Request Reply α} {q : Program Request Reply β}
    {next : α → Program Request Reply γ} {next' : β → Program Request Reply δ}
    (first : InStep observer related p q)
    (rest : ∀ a b, related a b → InStep observer related' (next a) (next' b)) :
    InStep observer related' (p >>= next) (q >>= next') := by
  induction first with
  | done h => exact rest _ _ h
  | ask same _ ih => exact .ask same ih

def SameOutcome (related : α → β → Prop) : Except ε α → Except ε β → Prop
  | .ok a, .ok b => related a b
  | .error e, .error e' => e = e'
  | _, _ => False

theorem SameOutcome.eq {outcome outcome' : Except ε α} (h : SameOutcome Eq outcome outcome') :
    outcome = outcome' := by
  cases outcome with
  | ok a =>
    cases outcome' with
    | ok b => exact congrArg Except.ok h
    | error e => exact h.elim
  | error e =>
    cases outcome' with
    | ok b => exact h.elim
    | error e' => exact congrArg Except.error h

theorem InStep.tryBind {related : α → β → Prop} {related' : γ → δ → Prop}
    {p : ExceptT ε (Program Request Reply) α} {q : ExceptT ε (Program Request Reply) β}
    {next : α → ExceptT ε (Program Request Reply) γ}
    {next' : β → ExceptT ε (Program Request Reply) δ}
    (first : InStep observer (SameOutcome related) p.run q.run)
    (rest : ∀ a b, related a b →
      InStep observer (SameOutcome related') (next a).run (next' b).run) :
    InStep observer (SameOutcome related') (p >>= next).run (q >>= next').run := by
  rw [ExceptT.run_bind, ExceptT.run_bind]
  refine first.bind fun outcome outcome' h => ?_
  cases outcome with
  | ok a =>
    cases outcome' with
    | ok b => exact rest a b h
    | error e => exact h.elim
  | error e =>
    cases outcome' with
    | ok b => exact h.elim
    | error e' => exact .done h

theorem InStep.self {p : Program Request Reply α}
    (h : p.Issues fun r => observer.same r r ∧
      ∀ x x', observer.agree ⟨r, x⟩ ⟨r, x'⟩ → x = x') :
    InStep observer Eq p p := by
  induction p with
  | done value => exact .done rfl
  | ask r rest ih =>
    refine .ask h.1.1 fun x x' agree => ?_
    obtain rfl := h.1.2 x x' agree
    exact ih x (h.2 x)

theorem InStep.mono {related related' : α → β → Prop} {p : Program Request Reply α}
    {q : Program Request Reply β} (h : InStep observer related p q)
    (weaker : ∀ a b, related a b → related' a b) : InStep observer related' p q := by
  induction h with
  | done h => exact .done (weaker _ _ h)
  | ask same _ ih => exact .ask same ih

/-- Complete runs of in-step programs in corresponding surroundings have the same length,
agree event by event, and return related values or both return none. -/
theorem InStep.runs {related : α → β → Prop} {p : Program Request Reply α}
    {q : Program Request Reply β} (h : InStep observer related p q)
    {trace trace' : List (Event Request Reply)} {value : Option α} {value' : Option β}
    (run : Run p trace value) (run' : Run q trace' value')
    (corresponding : observer.Corresponding trace trace') :
    List.Forall₂ (fun e e' => observer.same e.1 e'.1 ∧ observer.agree e e') trace trace' ∧
      Option.Rel related value value' := by
  induction h generalizing trace trace' with
  | done h =>
    obtain ⟨rfl, rfl⟩ := Run.done_iff.1 run
    obtain ⟨rfl, rfl⟩ := Run.done_iff.1 run'
    exact ⟨.nil, .some h⟩
  | ask same _ ih =>
    obtain ⟨x, tail, rfl, hrest⟩ | ⟨empty, rfl, rfl⟩ := Run.ask_iff.1 run
    · obtain ⟨x', tail', rfl, hrest'⟩ | ⟨empty, -, -⟩ := Run.ask_iff.1 run'
      · obtain ⟨agree, corresponding⟩ := corresponding same
        obtain ⟨events, values⟩ := ih x x' agree hrest hrest' corresponding
        exact ⟨.cons ⟨same, agree⟩ events, values⟩
      · exact (((observer.same_empty same).2 empty).false x).elim
    · obtain ⟨x', -, -, -⟩ | ⟨-, rfl, rfl⟩ := Run.ask_iff.1 run'
      · exact (((observer.same_empty same).1 empty).false x').elim
      · exact ⟨.nil, .none⟩

end Custodly.Library.Lockstep
