import Mathlib.Data.List.Infix
import Mathlib.Tactic.Common

/-! Items written one after another that can be told apart again: no item's text is the start
of another's, so a separator between them adds nothing, and may occur in them. -/
namespace Custodly.Library

variable {A C : Type}

/-- An item is read off the front of its text, whatever follows. -/
def SelfDelimiting (valid : A → Prop) (write : A → List C) : Prop :=
  ∀ a a' rest rest', valid a → valid a' → write a ++ rest = write a' ++ rest' →
    a = a' ∧ rest = rest'

namespace SelfDelimiting

variable {valid : A → Prop} {write : A → List C}

theorem intercalate_inj (h : SelfDelimiting valid write)
    (hne : ∀ a, valid a → write a ≠ []) {separator : C} {items items' : List A}
    (hitems : ∀ a ∈ items, valid a) (hitems' : ∀ a ∈ items', valid a)
    (hjoined : [separator].intercalate (items.map write) =
      [separator].intercalate (items'.map write)) : items = items' := by
  induction items generalizing items' with
  | nil =>
    cases items' with
    | nil => rfl
    | cons a' rest' =>
      have hwrite := hne a' (hitems' a' List.mem_cons_self)
      cases rest' <;> simp_all
  | cons a rest ih =>
    have ha := hitems a List.mem_cons_self
    cases items' with
    | nil =>
      have hwrite := hne a ha
      cases rest <;> simp_all
    | cons a' rest' =>
      have ha' := hitems' a' List.mem_cons_self
      -- each side is its first item followed by nothing or by a separator and the others
      have hsplit (b : A) (others : List A) : ∃ tail,
          [separator].intercalate ((b :: others).map write) = write b ++ tail ∧
            (others = [] ∧ tail = [] ∨ others ≠ [] ∧
              tail = separator :: [separator].intercalate (others.map write)) := by
        cases others with
        | nil => exact ⟨[], by simp, .inl ⟨rfl, rfl⟩⟩
        | cons c others =>
          refine ⟨_, ?_, .inr ⟨List.cons_ne_nil _ _, rfl⟩⟩
          rw [List.map_cons, List.map_cons, List.intercalate_cons_cons, ← List.map_cons]
          simp
      obtain ⟨tail, hfirst, htail⟩ := hsplit a rest
      obtain ⟨tail', hfirst', htail'⟩ := hsplit a' rest'
      rw [hfirst, hfirst'] at hjoined
      obtain ⟨rfl, rfl⟩ := h a a' tail tail' ha ha' hjoined
      congr 1
      rcases htail with ⟨hrest, htail⟩ | ⟨-, htail⟩
      · rcases htail' with ⟨hrest', -⟩ | ⟨-, htail'⟩
        · rw [hrest, hrest']
        · rw [htail] at htail'
          cases htail'
      · rcases htail' with ⟨-, htail'⟩ | ⟨-, htail'⟩
        · rw [htail] at htail'
          cases htail'
        · rw [htail, List.cons.injEq] at htail'
          exact ih (fun b hb => hitems b (List.mem_cons_of_mem _ hb))
            (fun b hb => hitems' b (List.mem_cons_of_mem _ hb)) htail'.2

end SelfDelimiting

end Custodly.Library
