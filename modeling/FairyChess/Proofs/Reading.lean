import Mathlib.Tactic

/-! Readings that succeed: each of their parts has succeeded. -/
namespace FairyChess

variable {ε α β : Type}

theorem ok_bind (a : α) (f : α → Except ε β) : (Except.ok a >>= f) = f a := rfl

theorem of_bind_eq_ok {x : Except ε α} {f : α → Except ε β} {b : β} (h : (x >>= f) = .ok b) :
    ∃ a, x = .ok a ∧ f a = .ok b := by
  cases x with
  | error e => cases h
  | ok a => exact ⟨a, rfl, h⟩

theorem bind_eq_ok_iff {x : Except ε α} {f : α → Except ε β} {b : β} :
    (x >>= f) = .ok b ↔ ∃ a, x = .ok a ∧ f a = .ok b := by
  refine ⟨of_bind_eq_ok, ?_⟩
  rintro ⟨a, rfl, h⟩
  exact h

theorem of_map_eq_ok {x : Except ε α} {f : α → β} {b : β} (h : x.map f = .ok b) :
    ∃ a, x = .ok a ∧ f a = b := by
  cases x with
  | error e => cases h
  | ok a => exact ⟨a, rfl, Except.ok.inj h⟩

theorem of_mapError_eq_ok {x : Except ε α} {f : ε → β} {a : α}
    (h : x.mapError f = .ok a) : x = .ok a := by
  cases x with
  | error e => cases h
  | ok b => exact congrArg Except.ok (Except.ok.inj h)

/-- Two readings that fail with the same error or succeed with results that are related. -/
def Agree (R : α → β → Prop) : Except ε α → Except ε β → Prop
  | .ok a, .ok b => R a b
  | .error e, .error e' => e = e'
  | _, _ => False

section Agree

variable {γ δ : Type} {R : α → β → Prop} {S : γ → δ → Prop}

theorem Agree.bind {x : Except ε α} {y : Except ε β} {f : α → Except ε γ} {g : β → Except ε δ}
    (h : Agree R x y) (hfg : ∀ a b, x = .ok a → R a b → Agree S (f a) (g b)) :
    Agree S (x >>= f) (y >>= g) := by
  cases x <;> cases y
  · exact h
  · cases h
  · cases h
  · exact hfg _ _ rfl h

theorem Agree.bind_self {x : Except ε α} {f : α → Except ε γ} {g : α → Except ε δ}
    (hfg : ∀ a, Agree S (f a) (g a)) : Agree S (x >>= f) (x >>= g) := by
  cases x with
  | error e => rfl
  | ok a => exact hfg a

theorem Agree.symm {x : Except ε α} {y : Except ε β} (h : Agree R x y) : Agree (fun b a => R a b) y x := by
  cases x <;> cases y
  · exact Eq.symm h
  · cases h
  · cases h
  · exact h

theorem Agree.exists_ok {x : Except ε α} {y : Except ε β} (h : Agree R x y) {a : α} (hx : x = .ok a) :
    ∃ b, y = .ok b ∧ R a b := by
  subst hx
  cases y with
  | error e => cases h
  | ok b => exact ⟨b, rfl, h⟩

theorem Agree.eq_map {x : Except ε α} {y : Except ε β} {f : α → β} (h : Agree (fun a b => b = f a) x y) :
    y = x.map f := by
  cases x <;> cases y
  · exact congrArg Except.error h.symm
  · cases h
  · cases h
  · exact congrArg Except.ok h

end Agree

theorem foldlM_cons_ok {f : α → β → Except ε α} {a b c : α} {x : β} {xs : List β}
    (hx : f a x = .ok b) (hxs : xs.foldlM f b = .ok c) : (x :: xs).foldlM f a = .ok c := by
  rw [List.foldlM_cons, hx]
  exact hxs

theorem foldlM_append_ok {f : α → β → Except ε α} {a b c : α} {xs ys : List β}
    (hxs : xs.foldlM f a = .ok b) (hys : ys.foldlM f b = .ok c) :
    (xs ++ ys).foldlM f a = .ok c := by
  rw [List.foldlM_append, hxs]
  exact hys

theorem exists_of_mem_mapM {f : α → Except ε β} {xs : List α} {ys : List β}
    (h : xs.mapM f = .ok ys) {y : β} (hy : y ∈ ys) : ∃ x ∈ xs, f x = .ok y := by
  induction xs generalizing ys with
  | nil =>
    obtain rfl : [] = ys := Except.ok.inj h
    exact absurd hy List.not_mem_nil
  | cons x xs ih =>
    rw [List.mapM_cons] at h
    obtain ⟨first, hfirst, h⟩ := of_bind_eq_ok h
    obtain ⟨rest, hrest, h⟩ := of_bind_eq_ok h
    obtain rfl := Except.ok.inj h
    rcases List.mem_cons.mp hy with rfl | hy
    · exact ⟨x, List.mem_cons_self, hfirst⟩
    · obtain ⟨z, hz, hread⟩ := ih hrest hy
      exact ⟨z, List.mem_cons_of_mem x hz, hread⟩

end FairyChess
