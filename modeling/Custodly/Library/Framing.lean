import Mathlib.Data.List.Infix
import Mathlib.Tactic.Common

/-! Length-framed byte strings: a sequence of frames is read back from the front of
whatever follows it. -/
namespace Custodly.Library.Framing

/-- The length in unary, a zero, and the bytes. -/
def frame (bytes : List UInt8) : List UInt8 := List.replicate bytes.length 1 ++ 0 :: bytes

def frames (parts : List (List UInt8)) : List UInt8 := parts.flatMap frame

theorem replicate_append_zero_inj {m n : Nat} {xs ys : List UInt8}
    (h : List.replicate m 1 ++ 0 :: xs = List.replicate n 1 ++ 0 :: ys) : m = n ∧ xs = ys := by
  induction m generalizing n with
  | zero =>
    cases n with
    | zero => simpa using h
    | succ n => simp [List.replicate_succ] at h
  | succ m ih =>
    cases n with
    | zero => simp [List.replicate_succ] at h
    | succ n =>
      simp only [List.replicate_succ, List.cons_append, List.cons.injEq, true_and] at h
      obtain ⟨rfl, rest⟩ := ih h
      exact ⟨rfl, rest⟩

theorem frame_append_inj {a b xs ys : List UInt8} (h : frame a ++ xs = frame b ++ ys) :
    a = b ∧ xs = ys := by
  unfold frame at h
  rw [List.append_assoc, List.append_assoc, List.cons_append, List.cons_append] at h
  obtain ⟨hlength, htail⟩ := replicate_append_zero_inj h
  exact List.append_inj htail hlength

theorem frames_append_inj {as bs : List (List UInt8)} {xs ys : List UInt8}
    (hlength : as.length = bs.length) (h : frames as ++ xs = frames bs ++ ys) :
    as = bs ∧ xs = ys := by
  induction as generalizing bs with
  | nil =>
    have hnil : bs = [] := List.eq_nil_of_length_eq_zero hlength.symm
    rw [hnil] at h ⊢
    exact ⟨rfl, h⟩
  | cons a as ih =>
    cases bs with
    | nil => simp at hlength
    | cons b bs =>
      unfold frames at h ih
      rw [List.flatMap_cons, List.flatMap_cons, List.append_assoc, List.append_assoc] at h
      obtain ⟨rfl, hrest⟩ := frame_append_inj h
      obtain ⟨rfl, htail⟩ := ih (Nat.succ.inj hlength) hrest
      exact ⟨rfl, htail⟩

end Custodly.Library.Framing
