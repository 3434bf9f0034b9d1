import Custodly.Library.Interleaving

/-! Processes whose steps depend on who takes them, for a shared state of which each process
has a part of its own.  The run rule: what a step keeps, taken by a process under its rule,
every interleaving keeps. -/
namespace Custodly.Library.Processes
open Interaction Surroundings Interleaving

variable {Request : Type} {Reply : Request → Type} {α σ ι : Type} [DecidableEq ι]

def interleaveBy (step : ι → Step Request Reply σ) :
    Step (ι × Request) (fun request => Reply request.2) (Config ι Request Reply α σ) :=
  fun c event c' => interleave (step event.1.1) c event c'

variable {step : ι → Step Request Reply σ} {rule : ι → History Request Reply → Request → Prop}
  {goal : ι → History Request Reply → α → Prop}

/-- What the steps keep when each is issued under the rule of its process, with the events so
far as a ghost. -/
theorem invariant {kept : Interleaved ι Request Reply → σ → Prop}
    (stepKept : ∀ past i request reply s s', rule i (own i past) request →
      step i s ⟨request, reply⟩ s' → kept past s → kept (past ++ [⟨(i, request), reply⟩]) s')
    {past trace : Interleaved ι Request Reply} {c c' : Config ι Request Reply α σ}
    (hobey : AllObey rule goal past c) (hkept : kept past c.shared)
    (h : Follows (interleaveBy step) c trace c') :
    AllObey rule goal (past ++ trace) c' ∧ kept (past ++ trace) c'.shared := by
  induction trace generalizing past c with
  | nil =>
    rw [← show c = c' from h, List.append_nil]
    exact ⟨hobey, hkept⟩
  | cons event rest ih =>
    obtain ⟨next, hstep, hrest⟩ := h
    have hissued := hobey.issued hstep
    have hnext := hobey.next hstep
    obtain ⟨⟨i, request⟩, reply⟩ := event
    obtain ⟨_, -, hshared, -⟩ := hstep
    rw [← List.singleton_append, ← List.append_assoc]
    exact ih hnext (stepKept past i request reply _ _ hissued hshared hkept) hrest

theorem obey_of_follows {c c' : Config ι Request Reply α σ} {trace : Interleaved ι Request Reply}
    (hobey : AllObey rule goal [] c) (h : Follows (interleaveBy step) c trace c') :
    AllObey rule goal trace c' :=
  (@invariant _ _ _ _ _ _ step rule goal (fun _ _ => True) (fun _ _ _ _ _ _ _ _ _ => trivial)
    _ _ _ _ hobey trivial h).1

def Ruled (rule : ι → History Request Reply → Request → Prop) (past : Interleaved ι Request Reply) :
    Prop :=
  ∀ i before event after, own i past = before ++ event :: after → rule i before event.1

theorem Ruled.concat {past : Interleaved ι Request Reply} (h : Ruled rule past) {i : ι}
    {request : Request} {reply : Reply request} (hrule : rule i (own i past) request) :
    Ruled rule (past ++ [⟨(i, request), reply⟩]) := by
  intro j before event after heq
  rw [own_append] at heq
  by_cases hj : i = j
  · rw [← hj, own_singleton_self] at heq
    rw [← hj]
    rcases List.eq_nil_or_concat after with rfl | ⟨front, last, rfl⟩
    · obtain ⟨hbefore, hevent⟩ := List.append_inj' heq rfl
      rw [List.cons.injEq] at hevent
      rw [← hbefore, ← hevent.1]
      exact hrule
    · rw [List.concat_eq_append, ← List.cons_append, ← List.append_assoc] at heq
      exact h i before event front (List.append_inj' heq rfl).1
  · rw [own_singleton_of_ne hj, List.append_nil] at heq
    exact h j before event after heq

theorem ruled_of_follows {c c' : Config ι Request Reply α σ}
    {trace : Interleaved ι Request Reply} (hobey : AllObey rule goal [] c)
    (h : Follows (interleaveBy step) c trace c') : Ruled rule trace := by
  apply (@invariant _ _ _ _ _ _ step rule goal (fun past _ => Ruled rule past) _ _ _ _ _ hobey _
    h).2
  · exact fun past i request reply s s' hrule _ hpast => hpast.concat hrule
  · intro i before event after heq
    cases before <;> cases heq

theorem goal_of_done {past : Interleaved ι Request Reply} {c : Config ι Request Reply α σ}
    (h : AllObey rule goal past c) {i : ι} {value : α} (hdone : c.process i = .done value) :
    goal i (own i past) value := by
  have hobeys := h i
  rwa [hdone] at hobeys

theorem process_eq_of_follows {c c' : Config ι Request Reply α σ}
    {trace : Interleaved ι Request Reply} (h : Follows (interleaveBy step) c trace c') {i : ι}
    (hidle : own i trace = []) : c'.process i = c.process i := by
  induction trace generalizing c with
  | nil => rw [show c = c' from h]
  | cons event rest ih =>
    obtain ⟨next, ⟨after, -, -, hprocess⟩, hrest⟩ := h
    obtain ⟨⟨j, request⟩, reply⟩ := event
    rw [← List.singleton_append, own_append, List.append_eq_nil_iff] at hidle
    have hj : i ≠ j := by
      rintro rfl
      rw [own_singleton_self] at hidle
      cases hidle.1
    rw [ih hrest hidle.2, hprocess]
    exact Function.update_of_ne hj _ _

/-- What a process did until it returned is a run of its own. -/
theorem run_of_follows {c c' : Config ι Request Reply α σ} {trace : Interleaved ι Request Reply}
    (h : Follows (interleaveBy step) c trace c') {i : ι} {value : α}
    (hdone : c'.process i = .done value) : Run (c.process i) (own i trace) (some value) := by
  induction trace generalizing c with
  | nil =>
    rw [show c = c' from h, hdone]
    exact .done value
  | cons event rest ih =>
    obtain ⟨next, ⟨after, hask, -, hprocess⟩, hrest⟩ := h
    obtain ⟨⟨j, request⟩, reply⟩ := event
    have htail := ih hrest
    rw [← List.singleton_append, own_append]
    rw [hprocess] at htail
    by_cases hj : j = i
    · subst hj
      rw [Function.update_self] at htail
      rw [own_singleton_self, show c.process j = _ from hask]
      exact .ask reply htail
    · rw [Function.update_of_ne (Ne.symm hj)] at htail
      rwa [own_singleton_of_ne hj, List.nil_append]

theorem follows_play {answer : ι → σ → (request : Request) → Option (Reply request × σ)}
    (hanswer : ∀ i s request reply s', answer i s request = some (reply, s') →
      step i s ⟨request, reply⟩ s') (order : List ι) (c : Config ι Request Reply α σ) :
    Follows (interleaveBy step) c (play answer order c).1 (play answer order c).2 := by
  induction order generalizing c with
  | nil => rfl
  | cons i order ih =>
    unfold play
    cases hprocess : c.process i with
    | done value => rfl
    | ask request rest =>
      simp only
      cases hreply : answer i c.shared request with
      | none => rfl
      | some replied =>
        obtain ⟨reply, shared⟩ := replied
        exact ⟨_, ⟨rest, hprocess, hanswer i _ _ _ _ hreply, rfl⟩, ih _⟩

theorem kind_of_mem_play {answer : ι → σ → (request : Request) → Option (Reply request × σ)}
    {kind : Event Request Reply → Prop}
    (hanswer : ∀ i s request reply s', answer i s request = some (reply, s') →
      kind ⟨request, reply⟩) (i : ι) {order : List ι} {c : Config ι Request Reply α σ} :
    ∀ event ∈ own i (play answer order c).1, kind event := by
  induction order generalizing c with
  | nil => simp [play, own]
  | cons j order ih =>
    unfold play
    cases hprocess : c.process j with
    | done value => simp [own]
    | ask request rest =>
      simp only
      cases hreply : answer j c.shared request with
      | none => simp [own]
      | some replied =>
        obtain ⟨reply, shared⟩ := replied
        simp only
        rw [← List.singleton_append, own_append]
        intro event hmem
        rcases List.mem_append.1 hmem with hmem | hmem
        · by_cases hj : j = i
          · subst hj
            rw [own_singleton_self, List.mem_singleton] at hmem
            rw [hmem]
            exact hanswer _ _ _ _ _ hreply
          · rw [own_singleton_of_ne hj] at hmem
            cases hmem
        · exact ih event hmem

end Custodly.Library.Processes
