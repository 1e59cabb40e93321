import NginxAdmin.Lib.Prog

/-!
# Histories

`Traced σ` is a state together with the list of everything that happened so far, newest first; each
event keeps the state before and after it. `Exec.traced` runs a machine on such states.
-/

namespace NginxAdmin

variable {Op : Type} {Res : Op → Type} {σ χ : Type}

inductive Event (Res : Op → Type) (σ : Type) where
  | did (t : Nat) (o : Op) (r : Res o) (pre post : σ)
  | dropped (t : Nat) (o : Op) (pre post : σ)

namespace Event

/-- The thread an event belongs to. -/
def tid : Event Res σ → Nat
  | did t .. => t
  | dropped t .. => t

def pre : Event Res σ → σ
  | did _ _ _ pre _ => pre
  | dropped _ _ pre _ => pre

def post : Event Res σ → σ
  | did _ _ _ _ post => post
  | dropped _ _ _ post => post

end Event

structure Traced (Res : Op → Type) (σ : Type) where
  now : σ
  log : List (Event Res σ)

namespace Exec

def traced (E : Exec Res σ χ) : Exec Res (Traced Res σ) χ where
  step t o c s := (E.step t o c s.now).map fun a => (a.1, ⟨a.2, .did t o a.1 s.now a.2 :: s.log⟩)
  cancel t o s := (E.cancel t o s.now).map fun w => ⟨w, .dropped t o s.now w :: s.log⟩

variable {E : Exec Res σ χ} {ok : χ → Prop} {t : Nat} {o : Op} {s s' : Traced Res σ}

theorem traced_step {r : Res o} : (E.traced.machineOn ok).step t o s r s' ↔
    (E.machineOn ok).step t o s.now r s'.now ∧ s'.log = .did t o r s.now s'.now :: s.log := by
  obtain ⟨w', log'⟩ := s'
  simp only [machineOn, traced, Option.map_eq_some_iff, Prod.mk.injEq, Traced.mk.injEq, Prod.exists]
  constructor
  · rintro ⟨c, hc, r', w, h, rfl, rfl, rfl⟩
    exact ⟨⟨c, hc, h⟩, rfl⟩
  · rintro ⟨⟨c, hc, h⟩, rfl⟩
    exact ⟨c, hc, r, w', h, rfl, rfl, rfl⟩

theorem traced_cancel : (E.traced.machineOn ok).cancel t o s s' ↔
    E.cancel t o s.now = some s'.now ∧ s'.log = .dropped t o s.now s'.now :: s.log := by
  obtain ⟨w', log'⟩ := s'
  simp only [machineOn, traced, Option.map_eq_some_iff, Traced.mk.injEq]
  constructor
  · rintro ⟨w, h, rfl, rfl⟩
    exact ⟨h, rfl⟩
  · rintro ⟨h, rfl⟩
    exact ⟨w', h, rfl, rfl⟩

/-- A history only grows. -/
theorem eval_suffix {α : Type} {p : Prog Res α} {a : α} (h : p.Eval (E.traced.machineOn ok) t s a s') :
    s.log <:+ s'.log := by
  induction p generalizing s with
  | ret b => exact h.2 ▸ List.suffix_rfl
  | call o k ih =>
    obtain ⟨r, s₁, hs, h⟩ := h
    have hcons : s.log <:+ s₁.log := (traced_step.1 hs).2 ▸ List.suffix_cons _ _
    exact hcons.trans (ih r h)

end Exec

/-- Every event of the log is justified by what happened before it. -/
def Justified (gate : List (Event Res σ) → Event Res σ → Prop) : List (Event Res σ) → Prop
  | [] => True
  | e :: log => gate log e ∧ Justified gate log

theorem Justified.gate {gate : List (Event Res σ) → Event Res σ → Prop} {log before : List (Event Res σ)}
    {e : Event Res σ} (h : Justified gate log) (he : e :: before <:+ log) : gate before e := by
  induction log with
  | nil => simp at he
  | cons e' log ih =>
    rcases List.suffix_cons_iff.1 he with heq | he
    · cases heq; exact h.1
    · exact ih h.2 he

end NginxAdmin
