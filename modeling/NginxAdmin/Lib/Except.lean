import Mathlib.Tactic.Common

/-!
# Programs that throw

When sequences and checks in `Except` return.
-/

namespace NginxAdmin

theorem bind_eq_ok {α β ε : Type} {x : Except ε α} {f : α → Except ε β} {b : β} :
    (x >>= f) = .ok b ↔ ∃ a, x = .ok a ∧ f a = .ok b := by
  cases x with
  | ok a => simp [bind, Except.bind]
  | error e => simp [bind, Except.bind]

/-- A check that throws when `c` holds, before the rest `k`. -/
theorem guard_eq_ok {ε : Type} {c : Prop} [Decidable c] {e : ε} {k : Unit → Except ε Unit} :
    (if c then throw e >>= k else k ()) = .ok () ↔ ¬ c ∧ k () = .ok () := by
  by_cases hc : c
  · simp [hc, bind, Except.bind, throw, throwThe, MonadExceptOf.throw]
  · simp [hc]

theorem then_eq_ok {ε : Type} {x y : Except ε Unit} : (do x; y) = .ok () ↔ x = .ok () ∧ y = .ok () := by
  rw [bind_eq_ok]
  exact ⟨fun ⟨_, hx, hy⟩ => ⟨hx, hy⟩, fun ⟨hx, hy⟩ => ⟨(), hx, hy⟩⟩

end NginxAdmin
