import Mathlib.Tactic.Common

/-! Values written as texts and read back, where many texts may read as one value.  Writing
back what was read gives the normal form of a text, which reading and writing leave as it is. -/
namespace Custodly.Library

/-- Whatever is read comes back from what it is written as. -/
structure Codec (A B : Type) where
  encode : A → B
  decode : B → Option A
  decode_encode : ∀ b a, decode b = some a → decode (encode a) = some a

namespace Codec

variable {A B : Type} (codec : Codec A B)

def rewrite (b : B) : Option B := (codec.decode b).map codec.encode

def rewrites : Nat → B → Option B
  | 0, b => some b
  | n + 1, b => (rewrites n b).bind codec.rewrite

variable {codec} {a : A} {b : B}

theorem rewrite_of_decode (h : codec.decode b = some a) :
    codec.rewrite b = some (codec.encode a) := by
  unfold rewrite
  rw [h, Option.map_some]

theorem rewrite_encode (h : codec.decode b = some a) :
    codec.rewrite (codec.encode a) = some (codec.encode a) :=
  rewrite_of_decode (codec.decode_encode b a h)

theorem rewrites_succ (h : codec.decode b = some a) (n : Nat) :
    codec.rewrites (n + 1) b = some (codec.encode a) := by
  induction n with
  | zero =>
    rw [rewrites, rewrites, Option.bind_some]
    exact rewrite_of_decode h
  | succ n ih =>
    rw [rewrites, ih, Option.bind_some]
    exact rewrite_encode h

/-- However often it is written back, a text reads as at first. -/
theorem decode_rewrites (h : codec.decode b = some a) (n : Nat) :
    (codec.rewrites n b).bind codec.decode = some a := by
  cases n with
  | zero => exact h
  | succ n =>
    rw [rewrites_succ h, Option.bind_some]
    exact codec.decode_encode b a h

end Codec

end Custodly.Library
