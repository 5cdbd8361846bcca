import Mathlib.Data.List.Forall2

/-!
# Computations that may fail

Reasoning about `Except`: inversion of a sequence that ended well, and a postcondition
that also rules out one failure. `Meets bad Q x` says that `x` does not fail with `bad`
and that `Q` holds of its result if it has one; other failures are allowed.
-/
namespace Library

variable {F A B : Type}

theorem ok_bind (a : A) (f : A → Except F B) : (Except.ok a >>= f) = f a := rfl

/-- Peel one computation off a sequence that ended well. -/
theorem bind_eq_ok {x : Except F A} {f : A → Except F B} {b : B} :
    x >>= f = .ok b ↔ ∃ a, x = .ok a ∧ f a = .ok b := by
  cases x with
  | error e => simp [bind, Except.bind]
  | ok a => simp [bind, Except.bind]

theorem pure_eq_ok {a b : A} : (pure a : Except F A) = .ok b ↔ a = b := by
  simp [pure, Except.pure]

theorem map_eq_ok {x : Except F A} {f : A → B} {b : B} :
    x.map f = .ok b ↔ ∃ a, x = .ok a ∧ f a = b := by
  cases x with
  | error e => simp [Except.map]
  | ok a => simp [Except.map]

theorem map_eq_error {x : Except F A} {f : A → B} {e : F} :
    x.map f = .error e ↔ x = .error e := by
  cases x <;> simp [Except.map]

theorem mapM_eq_ok {f : A → Except F B} {g : A → B} {l : List A} (h : ∀ a ∈ l, f a = .ok (g a)) :
    l.mapM f = .ok (l.map g) := by
  induction l with
  | nil => rfl
  | cons a l ih =>
    rw [List.mapM_cons, h a (by simp), ih fun b hb => h b (by simp [hb])]
    rfl

theorem mapM_eq_ok_iff {f : A → Except F B} {l : List A} {m : List B} :
    l.mapM f = .ok m ↔ List.Forall₂ (fun a b => f a = .ok b) l m := by
  induction l generalizing m with
  | nil =>
    rw [List.mapM_nil, pure_eq_ok, List.forall₂_nil_left_iff]
    exact eq_comm
  | cons a l ih =>
    simp only [List.mapM_cons, bind_eq_ok, pure_eq_ok, ih]
    constructor
    · rintro ⟨b, hb, m, hm, rfl⟩
      exact .cons hb hm
    · rintro (_ | ⟨hb, hm⟩)
      exact ⟨_, hb, _, hm, rfl⟩

theorem exists_mapM_ok_iff {f : A → Except F B} {l : List A} :
    (∃ m, l.mapM f = .ok m) ↔ ∀ a ∈ l, ∃ b, f a = .ok b := by
  induction l with
  | nil => simp [pure_eq_ok]
  | cons a l ih =>
    simp only [List.mapM_cons, bind_eq_ok, pure_eq_ok, List.forall_mem_cons, ← ih]
    constructor
    · rintro ⟨_, b, hb, m, hm, -⟩
      exact ⟨⟨b, hb⟩, m, hm⟩
    · rintro ⟨⟨b, hb⟩, m, hm⟩
      exact ⟨_, b, hb, m, hm, rfl⟩

theorem exists_ok {x : Except F A} (h : x.isOk) : ∃ a, x = .ok a := by
  cases x with
  | error e => simp [Except.isOk, Except.toBool] at h
  | ok a => exact ⟨a, rfl⟩

def Meets (bad : F) (Q : A → Prop) : Except F A → Prop
  | .ok a => Q a
  | .error e => e ≠ bad

namespace Meets

variable {bad : F} {P Q : A → Prop} {x : Except F A}

@[simp] theorem ok_iff {a : A} : Meets bad Q (.ok a) ↔ Q a := Iff.rfl

@[simp] theorem pure_iff {a : A} : Meets bad Q (pure a) ↔ Q a := Iff.rfl

@[simp] theorem error_iff {e : F} : Meets bad Q (.error e) ↔ e ≠ bad := Iff.rfl

theorem result {a : A} (h : Meets bad Q x) (hx : x = .ok a) : Q a := by
  rwa [hx] at h

theorem ne_bad (h : Meets bad Q x) : x ≠ .error bad := by
  intro hx
  rw [hx] at h
  exact h rfl

/-- A computation that avoids every failure has a result. -/
theorem exists_ok [Nonempty F] (h : ∀ bad, Meets bad Q x) : ∃ a, x = .ok a ∧ Q a := by
  cases x with
  | error e => exact absurd rfl (h e)
  | ok a => exact ⟨a, rfl, h (Classical.arbitrary F)⟩

theorem mono (h : Meets bad P x) (hPQ : ∀ a, P a → Q a) : Meets bad Q x := by
  cases x with
  | error e => exact h
  | ok a => exact hPQ a h

theorem bind {f : A → Except F B} {Q : B → Prop} (hx : Meets bad P x)
    (hf : ∀ a, P a → Meets bad Q (f a)) : Meets bad Q (x >>= f) := by
  cases x with
  | error e => exact hx
  | ok a => exact hf a hx

theorem mapM {f : A → Except F B} {l : List A}
    (h : ∀ a ∈ l, Meets bad (fun _ => True) (f a)) :
    Meets bad (fun _ => True) (l.mapM f) := by
  induction l with
  | nil => simp
  | cons a l ih =>
    rw [List.mapM_cons]
    refine (h a (by simp)).bind fun b _ => ?_
    exact (ih fun c hc => h c (by simp [hc])).bind fun bs _ => trivial

end Meets

/-- Two computations fail alike, or have results that `Q` relates. -/
def Agree {C : Type} (Q : A → C → Prop) : Except F A → Except F C → Prop
  | .ok a, .ok c => Q a c
  | .error e, .error e' => e = e'
  | _, _ => False

namespace Agree

variable {C D : Type} {Q : A → C → Prop} {x : Except F A} {y : Except F C}

@[simp] theorem ok_iff {a : A} {c : C} : Agree (F := F) Q (.ok a) (.ok c) ↔ Q a c := Iff.rfl

theorem refl {Q : A → A → Prop} (h : ∀ a, Q a a) : Agree Q x x := by
  cases x with
  | error e => exact rfl
  | ok a => exact h a

theorem split (h : Agree Q x y) :
    (∃ e, x = .error e ∧ y = .error e) ∨ ∃ a c, x = .ok a ∧ y = .ok c ∧ Q a c := by
  cases x with
  | error e => cases y with
    | error e' => exact .inl ⟨e, rfl, congrArg Except.error (Eq.symm h)⟩
    | ok c => exact h.elim
  | ok a => cases y with
    | error e' => exact h.elim
    | ok c => exact .inr ⟨a, c, rfl, rfl, h⟩

theorem mono {Q' : A → C → Prop} (h : Agree Q x y) (hQ : ∀ a c, Q a c → Q' a c) :
    Agree Q' x y := by
  rcases h.split with ⟨e, rfl, rfl⟩ | ⟨a, c, rfl, rfl, h⟩
  · exact rfl
  · exact hQ a c h

theorem eq {x y : Except F A} (h : Agree Eq x y) : x = y := by
  rcases h.split with ⟨e, rfl, rfl⟩ | ⟨a, _, rfl, rfl, rfl⟩
  · rfl
  · rfl

theorem of_ok {a : A} (h : Agree Q x y) (hx : x = .ok a) : ∃ c, y = .ok c ∧ Q a c := by
  rcases h.split with ⟨e, rfl, -⟩ | ⟨a', c, rfl, rfl, h⟩
  · cases hx
  · cases hx
    exact ⟨c, rfl, h⟩

/-- The results are the ones related. -/
theorem attach (h : Agree Q x y) : Agree (fun a c => Q a c ∧ x = .ok a) x y := by
  rcases h.split with ⟨e, rfl, rfl⟩ | ⟨a, c, rfl, rfl, h⟩
  · exact rfl
  · exact ⟨h, rfl⟩

theorem bind {Q' : B → D → Prop} {f : A → Except F B} {g : C → Except F D} (h : Agree Q x y)
    (hfg : ∀ a c, Q a c → Agree Q' (f a) (g c)) : Agree Q' (x >>= f) (y >>= g) := by
  rcases h.split with ⟨e, rfl, rfl⟩ | ⟨a, c, rfl, rfl, h⟩
  · exact rfl
  · exact hfg a c h

/-- The first computation is the same on both sides. -/
theorem bind_left_eq {Q' : B → D → Prop} {f : A → Except F B} {g : A → Except F D}
    (hfg : ∀ a, x = .ok a → Agree Q' (f a) (g a)) : Agree Q' (x >>= f) (x >>= g) := by
  cases x with
  | error e => exact rfl
  | ok a => exact hfg a rfl

theorem bind_left {Q' : B → D → Prop} {f : A → Except F B} {g : A → Except F D}
    (hfg : ∀ a, Agree Q' (f a) (g a)) : Agree Q' (x >>= f) (x >>= g) :=
  bind_left_eq fun a _ => hfg a

end Agree

/-- `x` does what `y` does, unless `y` ends in a failure that is of no interest. -/
def Echoes {C : Type} (bad : F → Prop) (Q : A → C → Prop) (x : Except F A) (y : Except F C) :
    Prop :=
  (∃ e, bad e ∧ y = .error e) ∨ Agree Q x y

namespace Echoes

variable {C D : Type} {bad : F → Prop} {Q : A → C → Prop} {x : Except F A} {y : Except F C}

theorem agree (h : Echoes bad Q x y) (hbad : ∀ e, ¬bad e) : Agree Q x y := by
  rcases h with ⟨e, he, -⟩ | h
  · exact absurd he (hbad e)
  · exact h

theorem mono {Q' : A → C → Prop} (h : Echoes bad Q x y) (hQ : ∀ a c, Q a c → Q' a c) :
    Echoes bad Q' x y :=
  h.imp_right fun h => h.mono hQ

theorem bind {Q' : B → D → Prop} {f : A → Except F B} {g : C → Except F D} (h : Echoes bad Q x y)
    (hfg : ∀ a c, Q a c → Echoes bad Q' (f a) (g c)) : Echoes bad Q' (x >>= f) (y >>= g) := by
  rcases h with ⟨e, he, rfl⟩ | h
  · exact .inl ⟨e, he, rfl⟩
  · rcases h.split with ⟨e, rfl, rfl⟩ | ⟨a, c, rfl, rfl, h⟩
    · exact .inr rfl
    · exact hfg a c h

/-- Results that carry a state along. -/
theorem bind_pair {S T : Type} {P : S → T → Prop} {x : Except F (A × S)} {y : Except F (A × T)}
    {Q' : B → D → Prop} {f : A × S → Except F B} {g : A × T → Except F D}
    (h : Echoes bad (fun a c => a.1 = c.1 ∧ P a.2 c.2) x y)
    (hfg : ∀ a s t, P s t → Echoes bad Q' (f (a, s)) (g (a, t))) :
    Echoes bad Q' (x >>= f) (y >>= g) := by
  refine h.bind ?_
  rintro ⟨a, s⟩ ⟨_, t⟩ ⟨rfl, h⟩
  exact hfg a s t h

/-- The first computation is the same on both sides. -/
theorem bind_left {Q' : B → D → Prop} {f : A → Except F B} {g : A → Except F D}
    (hfg : ∀ a, Echoes bad Q' (f a) (g a)) : Echoes bad Q' (x >>= f) (x >>= g) :=
  bind (.inr (.refl (Q := Eq) fun _ => rfl)) fun _ _ h => h ▸ hfg _

/-- What `y` fails with is what `x` fails with. -/
theorem bind_error {f : A → Except F B} {g : C → Except F D} {e : F} (h : Echoes bad Q x y)
    (he : ¬bad e) (hfg : ∀ a c, Q a c → g c = .error e → f a = .error e)
    (hy : y >>= g = .error e) : x >>= f = .error e := by
  rcases h with ⟨e', he', rfl⟩ | h
  · cases hy
    exact absurd he' he
  · rcases h.split with ⟨e', rfl, rfl⟩ | ⟨a, c, rfl, rfl, h⟩
    · cases hy
      rfl
    · exact hfg a c h hy

end Echoes

end Library
