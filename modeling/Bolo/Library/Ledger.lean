import Mathlib.Algebra.BigOperators.Group.List.Basic
import Mathlib.Data.List.Induction
import Mathlib.Tactic.Ring

/-!
# Ledgers

A ledger records, in order, what an accumulator accepted and what it flushed. `pending`
is what was accepted since the last flush, the part that the accumulator still holds. If
every flush accounts for what was pending at that moment, then the flushes so far and the
pending part together account for everything that was accepted.
-/
namespace Library

inductive Entry (A B : Type) where
  | accept (a : A)
  | flush (b : B)

namespace Ledger

variable {A B M : Type}

def pending (l : List (Entry A B)) : List A :=
  l.foldl (fun held e => match e with
    | .accept a => held ++ [a]
    | .flush _ => []) []

def accepted (l : List (Entry A B)) : List A :=
  l.filterMap fun e => match e with
    | .accept a => some a
    | .flush _ => none

def flushed (l : List (Entry A B)) : List B :=
  l.filterMap fun e => match e with
    | .accept _ => none
    | .flush b => some b

@[simp] theorem pending_nil : pending ([] : List (Entry A B)) = [] := rfl

@[simp] theorem pending_accept (l : List (Entry A B)) (a : A) :
    pending (l ++ [.accept a]) = pending l ++ [a] := by
  simp [pending]

@[simp] theorem pending_flush (l : List (Entry A B)) (b : B) :
    pending (l ++ [.flush b]) = [] := by
  simp [pending]

@[simp] theorem pending_flush_accept (l : List (Entry A B)) (b : B) (a : A) :
    pending (l ++ [.flush b, .accept a]) = [a] := by
  simp [pending]

@[simp] theorem accepted_append (l m : List (Entry A B)) :
    accepted (l ++ m) = accepted l ++ accepted m := List.filterMap_append

@[simp] theorem flushed_append (l m : List (Entry A B)) :
    flushed (l ++ m) = flushed l ++ flushed m := List.filterMap_append

@[simp] theorem accepted_accept (a : A) : accepted [(.accept a : Entry A B)] = [a] := rfl
@[simp] theorem accepted_flush (b : B) : accepted [(.flush b : Entry A B)] = [] := rfl
@[simp] theorem flushed_accept (a : A) : flushed [(.accept a : Entry A B)] = [] := rfl
@[simp] theorem flushed_flush (b : B) : flushed [(.flush b : Entry A B)] = [b] := rfl

/-- Every flush stands in the relation `P` to what was pending when it happened. -/
def Flushes (P : List A → B → Prop) (l : List (Entry A B)) : Prop :=
  ∀ before b after, l = before ++ .flush b :: after → P (pending before) b

variable {P Q : List A → B → Prop} {l : List (Entry A B)}

theorem Flushes.nil : Flushes P ([] : List (Entry A B)) := by
  intro before b after h
  simp at h

theorem Flushes.mono (h : Flushes P l) (hPQ : ∀ as b, P as b → Q as b) : Flushes Q l :=
  fun before b after hl => hPQ _ _ (h before b after hl)

theorem Flushes.accept (h : Flushes P l) (a : A) : Flushes P (l ++ [.accept a]) := by
  intro before b after heq
  rcases List.eq_nil_or_concat after with rfl | ⟨rest, e, rfl⟩
  · have := (List.append_inj' heq rfl).2
    simp at this
  · rw [List.concat_eq_append, ← List.cons_append, ← List.append_assoc] at heq
    exact h before b rest (List.append_inj' heq rfl).1

theorem Flushes.flush (h : Flushes P l) {b : B} (hb : P (pending l) b) :
    Flushes P (l ++ [.flush b]) := by
  intro before b' after heq
  rcases List.eq_nil_or_concat after with rfl | ⟨rest, e, rfl⟩
  · obtain ⟨rfl, hbb⟩ := List.append_inj' heq rfl
    obtain rfl : b = b' := by simpa using hbb
    exact hb
  · rw [List.concat_eq_append, ← List.cons_append, ← List.append_assoc] at heq
    exact h before b' rest (List.append_inj' heq rfl).1

/-- If each flush carries the total of what was pending, nothing is lost or counted twice. -/
theorem Flushes.conservation [AddCommMonoid M] {f : A → M} {g : B → M}
    (h : Flushes (fun as b => g b = (as.map f).sum) l) :
    ((flushed l).map g).sum + ((pending l).map f).sum = ((accepted l).map f).sum := by
  induction l using List.reverseRecOn with
  | nil => simp [pending, flushed, accepted]
  | append_singleton l e ih =>
    have hl : Flushes (fun as b => g b = (as.map f).sum) l := by
      intro before b after heq
      exact h before b (after ++ [e]) (by simp [heq])
    cases e with
    | accept a => simp [← ih hl, add_assoc]
    | flush b =>
      have hb : g b = ((pending l).map f).sum := h l b [] (by simp)
      simp [← ih hl, hb]

end Ledger

end Library
