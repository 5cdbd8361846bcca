import Mathlib.Tactic.Ring

/-!
# Singly linked chains

A linked list as C code builds it in memory it has not cleared. Each node points to the next,
and the last one points to NULL or, where its field was never written, to nothing at all: such
a pointer is `wild`, and neither reading through it nor freeing it is defined.
-/
namespace Library

/-- A pointer to a block of its own: no two pointers are the same. -/
inductive Pointer (A : Type) where
  | null
  | wild
  | to (a : A)
  deriving DecidableEq, Repr

inductive Chain (A : Type) where
  | null
  | wild
  | node (a : A) (next : Chain A)
  deriving DecidableEq, Repr

namespace Chain

variable {A : Type}

/-- The pointer that `n` steps lead to, or to NULL before that; `none` if a step goes through
a wild pointer. -/
def follow : Nat → Chain A → Option (Chain A)
  | 0, c => some c
  | _ + 1, .null => some .null
  | _ + 1, .wild => none
  | n + 1, .node _ next => next.follow n

@[simp] theorem follow_zero (c : Chain A) : c.follow 0 = some c := by
  cases c <;> rfl

@[simp] theorem follow_null (n : Nat) : (null : Chain A).follow n = some .null := by
  cases n <;> rfl

def nodes : Chain A → List A
  | .null => []
  | .wild => []
  | .node a next => a :: next.nodes

/-- The last node points to NULL. -/
def ends : Chain A → Bool
  | .null => true
  | .wild => false
  | .node _ next => next.ends

/-- Write `d` where the last node points. -/
def link : Chain A → Chain A → Chain A
  | .null, d => d
  | .wild, d => d
  | .node a next, d => .node a (next.link d)

@[simp] theorem nodes_link (c d : Chain A) : (c.link d).nodes = c.nodes ++ d.nodes := by
  induction c with
  | null => rfl
  | wild => rfl
  | node a next ih => simp [link, nodes, ih]

@[simp] theorem ends_link (c d : Chain A) : (c.link d).ends = d.ends := by
  induction c with
  | null => rfl
  | wild => rfl
  | node a next ih => simp [link, ends, ih]

end Chain

end Library
