import Custodly.Library.History
import Custodly.Library.Surroundings
import Mathlib.Logic.Function.Basic

/-! Processes that act on one shared state, one request at a time.  Any of them may go next.
What a program keeps by itself, about its own requests, it keeps in every interleaving. -/
namespace Custodly.Library.Interleaving
open Interaction Surroundings

variable {Request : Type} {Reply : Request → Type} {α σ ι : Type}

/-- The shared state, and what each process still has to do. -/
structure Config (ι Request : Type) (Reply : Request → Type) (α σ : Type) where
  shared : σ
  process : ι → Program Request Reply α

abbrev Interleaved (ι Request : Type) (Reply : Request → Type) :=
  History (ι × Request) fun request => Reply request.2

variable [DecidableEq ι]

def interleave (step : Step Request Reply σ) :
    Step (ι × Request) (fun request => Reply request.2) (Config ι Request Reply α σ) :=
  fun c event c' => ∃ rest, c.process event.1.1 = .ask event.1.2 rest ∧
    step c.shared ⟨event.1.2, event.2⟩ c'.shared ∧
    c'.process = Function.update c.process event.1.1 (rest event.2)

def own (i : ι) (trace : Interleaved ι Request Reply) : History Request Reply :=
  trace.filterMap fun event => if event.1.1 = i then some ⟨event.1.2, event.2⟩ else none

@[simp] theorem own_append (i : ι) (first second : Interleaved ι Request Reply) :
    own i (first ++ second) = own i first ++ own i second := List.filterMap_append ..

theorem own_singleton_self (i : ι) (request : Request) (reply : Reply request) :
    own i ([⟨(i, request), reply⟩] : Interleaved ι Request Reply) = [⟨request, reply⟩] := by
  simp [own]

theorem own_singleton_of_ne {i j : ι} (h : j ≠ i) (request : Request) (reply : Reply request) :
    own i ([⟨(j, request), reply⟩] : Interleaved ι Request Reply) = [] := by
  simp [own, h]

theorem mem_own_iff {i : ι} {request : Request} {reply : Reply request}
    {trace : Interleaved ι Request Reply} :
    ⟨request, reply⟩ ∈ own i trace ↔ ⟨(i, request), reply⟩ ∈ trace := by
  unfold own
  rw [List.mem_filterMap]
  constructor
  · rintro ⟨⟨⟨j, request'⟩, reply'⟩, hmem, hevent⟩
    by_cases hj : j = i
    · rw [if_pos hj, Option.some.injEq] at hevent
      cases hevent
      rwa [← hj]
    · rw [if_neg hj] at hevent
      cases hevent
  · intro hmem
    exact ⟨_, hmem, if_pos rfl⟩

variable {rule : ι → History Request Reply → Request → Prop}
  {goal : ι → History Request Reply → α → Prop}

/-- Every process keeps its rule and its goal, counting its own events only. -/
def AllObey (rule : ι → History Request Reply → Request → Prop)
    (goal : ι → History Request Reply → α → Prop) (past : Interleaved ι Request Reply)
    (c : Config ι Request Reply α σ) : Prop :=
  ∀ i, (c.process i).Obeys (rule i) (goal i) (own i past)

theorem AllObey.issued {step : Step Request Reply σ} {past : Interleaved ι Request Reply}
    {c c' : Config ι Request Reply α σ} {event : Event (ι × Request) fun r => Reply r.2}
    (h : AllObey rule goal past c) (hstep : interleave step c event c') :
    rule event.1.1 (own event.1.1 past) event.1.2 := by
  obtain ⟨rest, hask, -, -⟩ := hstep
  have hobeys := h event.1.1
  rw [hask] at hobeys
  exact hobeys.1

/-- The step rule: whoever takes a step, all go on obeying. -/
theorem AllObey.next {step : Step Request Reply σ} {past : Interleaved ι Request Reply}
    {c c' : Config ι Request Reply α σ} {event : Event (ι × Request) fun r => Reply r.2}
    (h : AllObey rule goal past c) (hstep : interleave step c event c') :
    AllObey rule goal (past ++ [event]) c' := by
  obtain ⟨rest, hask, -, hprocess⟩ := hstep
  obtain ⟨⟨j, request⟩, reply⟩ := event
  intro i
  rw [hprocess, own_append]
  by_cases hj : j = i
  · have hobeys := h i
    rw [← hj, hask] at hobeys
    rw [← hj, Function.update_self, own_singleton_self]
    exact hobeys.2 reply
  · rw [Function.update_of_ne (Ne.symm hj), own_singleton_of_ne hj, List.append_nil]
    exact h i

theorem AllObey.ended {past : Interleaved ι Request Reply} {c : Config ι Request Reply α σ}
    (h : AllObey rule goal past c) {i : ι} (hrule : ∀ request, ¬ rule i (own i past) request) :
    ∃ value, c.process i = .done value ∧ goal i (own i past) value := by
  have hobeys := h i
  cases hprocess : c.process i with
  | done value =>
    rw [hprocess] at hobeys
    exact ⟨value, rfl, hobeys⟩
  | ask request rest =>
    rw [hprocess] at hobeys
    exact (hrule request hobeys.1).elim

def play (answer : ι → σ → (request : Request) → Option (Reply request × σ)) :
    List ι → Config ι Request Reply α σ →
      Interleaved ι Request Reply × Config ι Request Reply α σ
  | [], c => ([], c)
  | i :: order, c =>
      match c.process i with
      | .done _ => ([], c)
      | .ask request rest =>
          match answer i c.shared request with
          | none => ([], c)
          | some (reply, shared) =>
              let played := play answer order ⟨shared, Function.update c.process i (rest reply)⟩
              (⟨(i, request), reply⟩ :: played.1, played.2)

theorem follows_play {step : Step Request Reply σ}
    {answer : ι → σ → (request : Request) → Option (Reply request × σ)}
    (hanswer : ∀ i s request reply s', answer i s request = some (reply, s') →
      step s ⟨request, reply⟩ s') (order : List ι) (c : Config ι Request Reply α σ) :
    Follows (interleave step) c (play answer order c).1 (play answer order c).2 := by
  induction order generalizing c with
  | nil => rfl
  | cons i order ih =>
    unfold play
    cases hprocess : c.process i with
    | done value => rfl
    | ask request rest =>
      simp only
      cases hreply : answer i c.shared request with
      | none => rfl
      | some replied =>
        obtain ⟨reply, shared⟩ := replied
        exact ⟨_, ⟨rest, hprocess, hanswer i _ _ _ _ hreply, rfl⟩, ih _⟩

end Custodly.Library.Interleaving
