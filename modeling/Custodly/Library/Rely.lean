import Custodly.Library.Processes

/-! One process among others, from its own point of view.  Between two of its steps the others
do what a relation says, and no more; what the process does is then an execution by itself,
disturbed by that relation. -/
namespace Custodly.Library.Rely
open Interaction Surroundings Interleaving Processes

variable {Request : Type} {Reply : Request → Type} {α σ τ ι : Type}

/-- A step taken after whatever the others did. -/
def disturbed (rely : τ → τ → Prop) (step : Step Request Reply τ) : Step Request Reply τ :=
  fun s event s' => ∃ between, rely s between ∧ step between event s'

section Order

variable {rely : τ → τ → Prop} {base base' : Step Request Reply τ} {s s₁ s₂ s' : τ}
  {trace : History Request Reply}

theorem follows_after (htrans : ∀ a b c, rely a b → rely b c → rely a c) (hs : rely s s₁)
    (h : Follows (disturbed rely base) s₁ trace s₂) (hs' : rely s₂ s') :
    ∃ last, Follows (disturbed rely base) s trace last ∧ rely last s' := by
  cases trace with
  | nil =>
    rw [← show s₁ = s₂ from h] at hs'
    exact ⟨s, rfl, htrans _ _ _ hs hs'⟩
  | cons event rest =>
    obtain ⟨next, ⟨between, hbetween, hstep⟩, hrest⟩ := h
    exact ⟨s₂, ⟨next, ⟨between, htrans _ _ _ hs hbetween, hstep⟩, hrest⟩, hs'⟩

theorem follows_restrict {kind : Event Request Reply → Prop}
    (h : Follows (disturbed rely base) s trace s') (hkind : ∀ event ∈ trace, kind event) :
    Follows (disturbed rely fun s event s' => base s event s' ∧ kind event) s trace s' := by
  induction trace generalizing s with
  | nil => exact h
  | cons event rest ih =>
    obtain ⟨next, ⟨between, hbetween, hstep⟩, hrest⟩ := h
    rw [List.forall_mem_cons] at hkind
    exact ⟨next, ⟨between, hbetween, hstep, hkind.1⟩, ih hrest hkind.2⟩

theorem kind_of_follows {kind : Event Request Reply → Prop}
    (h : Follows (fun s event s' => base s event s' ∧ kind event) s trace s') :
    Follows base s trace s' ∧ ∀ event ∈ trace, kind event := by
  induction trace generalizing s with
  | nil => exact ⟨h, List.forall_mem_nil _⟩
  | cons event rest ih =>
    obtain ⟨next, ⟨hstep, hkind⟩, hrest⟩ := h
    obtain ⟨hfollows, hkinds⟩ := ih hrest
    exact ⟨⟨next, hstep, hfollows⟩, List.forall_mem_cons.2 ⟨hkind, hkinds⟩⟩

theorem follows_of_kind {kind : Event Request Reply → Prop} (h : Follows base s trace s')
    (hkind : ∀ event ∈ trace, kind event) :
    Follows (fun s event s' => base s event s' ∧ kind event) s trace s' := by
  induction trace generalizing s with
  | nil => exact h
  | cons event rest ih =>
    obtain ⟨next, hstep, hrest⟩ := h
    rw [List.forall_mem_cons] at hkind
    exact ⟨next, ⟨hstep, hkind.1⟩, ih hrest hkind.2⟩

end Order

variable [DecidableEq ι] {step : ι → Step Request Reply σ}
  {rule : ι → History Request Reply → Request → Prop} {goal : ι → History Request Reply → α → Prop}
  {view : σ → τ} {rely : τ → τ → Prop} {base : Step Request Reply τ} {j : ι}

/-- What one process does in an interleaving is an execution on its own view, where each step
of another is in the relation as long as an invariant holds. -/
theorem own_follows {kept : Interleaved ι Request Reply → σ → Prop}
    (hrefl : ∀ s, rely s s) (htrans : ∀ a b c, rely a b → rely b c → rely a c)
    (stepKept : ∀ past i request reply s s', rule i (own i past) request →
      step i s ⟨request, reply⟩ s' → kept past s → kept (past ++ [⟨(i, request), reply⟩]) s')
    (hown : ∀ s event s', step j s event s' → base (view s) event (view s'))
    (hothers : ∀ past i request reply s s', i ≠ j → rule i (own i past) request →
      step i s ⟨request, reply⟩ s' → kept past s → rely (view s) (view s'))
    {past trace : Interleaved ι Request Reply} {c c' : Config ι Request Reply α σ}
    (hobey : AllObey rule goal past c) (hkept : kept past c.shared)
    (h : Follows (interleaveBy step) c trace c') :
    ∃ last, Follows (disturbed rely base) (view c.shared) (own j trace) last ∧
      rely last (view c'.shared) := by
  induction trace generalizing past c with
  | nil =>
    rw [← show c = c' from h]
    exact ⟨_, rfl, hrefl _⟩
  | cons event rest ih =>
    obtain ⟨next, hstep, hrest⟩ := h
    have hissued := hobey.issued hstep
    have hnext := hobey.next hstep
    obtain ⟨⟨i, request⟩, reply⟩ := event
    obtain ⟨_, -, hshared, -⟩ := hstep
    obtain ⟨last, hfollows, hlast⟩ :=
      ih hnext (stepKept past i request reply _ _ hissued hshared hkept) hrest
    rw [← List.singleton_append, own_append]
    by_cases hi : i = j
    · subst hi
      rw [own_singleton_self]
      exact ⟨last, ⟨_, ⟨_, hrefl _, hown _ _ _ hshared⟩, hfollows⟩, hlast⟩
    · rw [own_singleton_of_ne hi, List.nil_append]
      exact follows_after htrans (hothers past i request reply _ _ hi hissued hshared hkept)
        hfollows hlast

end Custodly.Library.Rely
