import Mathlib.Logic.Function.Basic
import Mathlib.Tactic.Common

/-!
# Programs as trees of operations

`Prog Res α` is a program that asks its environment for operations `o : Op`, continues with the answer
of type `Res o`, and finally returns an `α`. Every branch is finite, so a program is also its own
program counter: the rest of a running program is a subterm of it.

`Machine` gives the operations a meaning on a shared state `σ`, `Prog.Eval` runs one program alone
to its end.
-/

namespace NginxAdmin

variable {Op : Type} {Res : Op → Type} {α β γ : Type} {σ χ : Type}

inductive Prog (Res : Op → Type) (α : Type) where
  | ret (a : α)
  | call (o : Op) (k : Res o → Prog Res α)

namespace Prog

def bind : Prog Res α → (α → Prog Res β) → Prog Res β
  | ret a, f => f a
  | call o k, f => call o fun r => (k r).bind f

instance : Monad (Prog Res) where
  pure := ret
  bind := bind

/-- The program that asks for `o` and returns the answer. -/
def perform (o : Op) : Prog Res (Res o) := call o ret

@[simp] theorem ret_bind (a : α) (f : α → Prog Res β) : ret a >>= f = f a := rfl

@[simp] theorem call_bind (o : Op) (k : Res o → Prog Res α) (f : α → Prog Res β) :
    call o k >>= f = call o fun r => k r >>= f := rfl

theorem bind_ret (p : Prog Res α) : p.bind ret = p := by
  induction p with
  | ret a => rfl
  | call o k ih => simp only [bind, ih]

theorem bind_assoc (p : Prog Res α) (f : α → Prog Res β) (g : β → Prog Res γ) :
    (p.bind f).bind g = p.bind fun a => (f a).bind g := by
  induction p with
  | ret a => rfl
  | call o k ih => simp only [bind, ih]

instance : LawfulMonad (Prog Res) :=
  LawfulMonad.mk' (Prog Res) bind_ret (fun _ _ => rfl) bind_assoc

/-- Every operation that `p` can ask for, whatever the answers, satisfies `P`. -/
def All (P : Op → Prop) : Prog Res α → Prop
  | ret _ => True
  | call o k => P o ∧ ∀ r, (k r).All P

theorem All.bind {P : Op → Prop} {p : Prog Res α} {f : α → Prog Res β} (hp : p.All P)
    (hf : ∀ a, (f a).All P) : (p >>= f).All P := by
  induction p with
  | ret a => exact hf a
  | call o k ih => exact ⟨hp.1, fun r => ih r (hp.2 r)⟩

theorem All.mono {P Q : Op → Prop} (h : ∀ o, P o → Q o) {p : Prog Res α} (hp : p.All P) : p.All Q := by
  induction p with
  | ret a => exact trivial
  | call o k ih => exact ⟨h o hp.1, fun r => ih r (hp.2 r)⟩

theorem all_true (p : Prog Res α) : p.All fun _ => True := by
  induction p with
  | ret a => exact trivial
  | call o k ih => exact ⟨trivial, ih⟩

theorem All.perform {P : Op → Prop} {o : Op} (h : P o) : (perform o : Prog Res _).All P :=
  ⟨h, fun _ => trivial⟩

theorem All.tryBind {ε : Type} {P : Op → Prop} {x : ExceptT ε (Prog Res) α} {f : α → ExceptT ε (Prog Res) β}
    (hx : x.run.All P) (hf : ∀ a, (f a).run.All P) : (x >>= f).run.All P := by
  rw [ExceptT.run_bind]
  refine hx.bind fun r => ?_
  cases r with
  | ok a => exact hf a
  | error e => exact trivial

/-- Whatever the answers are, `p` returns something that satisfies `R`. -/
def Returns (R : α → Prop) : Prog Res α → Prop
  | ret a => R a
  | call _ k => ∀ r, (k r).Returns R

theorem Returns.bind {R : α → Prop} {S : β → Prop} {p : Prog Res α} {f : α → Prog Res β} (hp : p.Returns R)
    (hf : ∀ a, R a → (f a).Returns S) : (p >>= f).Returns S := by
  induction p with
  | ret a => exact hf a hp
  | call o k ih => exact fun r => ih r (hp r)

theorem returns_true (p : Prog Res α) : p.Returns fun _ => True := by
  induction p with
  | ret a => exact trivial
  | call o k ih => exact ih

theorem Returns.tryBind {ε : Type} {x : ExceptT ε (Prog Res) α} {f : α → ExceptT ε (Prog Res) β}
    {R : Except ε α → Prop} {S : Except ε β → Prop} (hx : x.run.Returns R)
    (hf : ∀ a, R (.ok a) → (f a).run.Returns S) (he : ∀ e, R (.error e) → S (.error e)) :
    (x >>= f).run.Returns S := by
  rw [ExceptT.run_bind]
  refine hx.bind fun r hr => ?_
  cases r with
  | ok a => exact hf a hr
  | error e => exact he e hr

end Prog

/-- What the operations do: thread `t` asking for `o` in state `s` gets `r` and leaves `s'`, or is
cancelled while it waits for `o` and leaves `s'`. -/
structure Machine (Res : Op → Type) (σ : Type) where
  step : Nat → (o : Op) → σ → Res o → σ → Prop
  cancel : Nat → Op → σ → σ → Prop

namespace Machine

/-- The runs in which nobody is cancelled. -/
def noDrops (M : Machine Res σ) : Machine Res σ := ⟨M.step, fun _ _ _ _ => False⟩

/-- The runs all of whose steps are in `ok` and all of whose cancellations are in `okDrop`. -/
def restrict (M : Machine Res σ) (ok : Nat → (o : Op) → σ → Res o → σ → Prop)
    (okDrop : Nat → Op → σ → Prop) : Machine Res σ where
  step t o s r s' := M.step t o s r s' ∧ ok t o s r s'
  cancel t o s s' := M.cancel t o s s' ∧ okDrop t o s

end Machine

/-- An executable machine: `χ` is what the outside world decides at a step, `none` is an operation
that is not enabled. -/
structure Exec (Res : Op → Type) (σ χ : Type) where
  step : Nat → (o : Op) → χ → σ → Option (Res o × σ)
  cancel : Nat → Op → σ → Option σ

namespace Exec

/-- The machine whose outside world only decides things in `ok`. -/
def machineOn (E : Exec Res σ χ) (ok : χ → Prop) : Machine Res σ where
  step t o s r s' := ∃ c, ok c ∧ E.step t o c s = some (r, s')
  cancel t o s s' := E.cancel t o s = some s'

abbrev machine (E : Exec Res σ χ) : Machine Res σ := E.machineOn fun _ => True

/-- Runs `p` as thread `t` with the decisions `cs`, one for each operation. -/
def run (E : Exec Res σ χ) (t : Nat) : Prog Res α → List χ → σ → Option (α × σ)
  | .ret a, _, s => some (a, s)
  | .call _ _, [], _ => none
  | .call o k, c :: cs, s => (E.step t o c s).bind fun p => E.run t (k p.1) cs p.2

end Exec

namespace Prog

/-- `p`, run alone by thread `t` from `s`, returns `a` and leaves `s'`. -/
def Eval (M : Machine Res σ) (t : Nat) : Prog Res α → σ → α → σ → Prop
  | ret a, s, b, s' => b = a ∧ s' = s
  | call o k, s, b, s' => ∃ r s₁, M.step t o s r s₁ ∧ (k r).Eval M t s₁ b s'

variable {M : Machine Res σ} {t : Nat} {s s' : σ}

@[simp] theorem eval_ret {a b : α} : (ret a : Prog Res α).Eval M t s b s' ↔ b = a ∧ s' = s := Iff.rfl

@[simp] theorem eval_pure {a b : α} :
    (pure a : Prog Res α).Eval M t s b s' ↔ b = a ∧ s' = s := Iff.rfl

theorem eval_call {o : Op} {k : Res o → Prog Res α} {b : α} :
    (call o k).Eval M t s b s' ↔ ∃ r s₁, M.step t o s r s₁ ∧ (k r).Eval M t s₁ b s' := Iff.rfl

theorem eval_bind {p : Prog Res α} {f : α → Prog Res β} {b : β} :
    (p >>= f).Eval M t s b s' ↔ ∃ a s₁, p.Eval M t s a s₁ ∧ (f a).Eval M t s₁ b s' := by
  induction p generalizing s with
  | ret a => simp
  | call o k ih =>
    simp only [call_bind, eval_call, ih]
    constructor
    · rintro ⟨r, s₁, hs, a, s₂, h₁, h₂⟩
      exact ⟨a, s₂, ⟨r, s₁, hs, h₁⟩, h₂⟩
    · rintro ⟨a, s₂, ⟨r, s₁, hs, h₁⟩, h₂⟩
      exact ⟨r, s₁, hs, a, s₂, h₁, h₂⟩

@[simp] theorem eval_perform {o : Op} {r : Res o} :
    (perform o : Prog Res _).Eval M t s r s' ↔ M.step t o s r s' := by
  simp only [perform, eval_call, eval_ret]
  exact ⟨fun ⟨_, _, h, hr, hs⟩ => by subst hr hs; exact h, fun h => ⟨r, s', h, rfl, rfl⟩⟩

theorem Eval.imp {M' : Machine Res σ} (hM : ∀ o s r s', M.step t o s r s' → M'.step t o s r s') {p : Prog Res α} {a : α}
    (h : p.Eval M t s a s') : p.Eval M' t s a s' := by
  induction p generalizing s with
  | ret b => exact h
  | call o k ih =>
    obtain ⟨r, s₁, hstep, h⟩ := h
    exact ⟨r, s₁, hM o s r s₁ hstep, ih r h⟩

/-- What the operations of a program preserve, the program preserves. -/
theorem Eval.of_all {K : Op → Prop} {I : σ → Prop} {p : Prog Res α} {a : α} (h : p.Eval M t s a s') (hp : p.All K)
    (hK : ∀ o s r s', K o → I s → M.step t o s r s' → I s') (hs : I s) : I s' := by
  induction p generalizing s with
  | ret b => exact h.2 ▸ hs
  | call o k ih =>
    obtain ⟨r, s₁, hstep, h⟩ := h
    exact ih r h (hp.2 r) (hK o s r s₁ hp.1 hs hstep)

/-- A program whose operations are enabled runs to its end. -/
theorem exists_eval {K : Op → Prop} {I : σ → Prop}
    (hK : ∀ o, K o → ∀ s, I s → ∃ r s', M.step t o s r s' ∧ I s') {p : Prog Res α} (hp : p.All K) (hs : I s) :
    ∃ b s', p.Eval M t s b s' ∧ I s' := by
  induction p generalizing s with
  | ret a => exact ⟨a, s, ⟨rfl, rfl⟩, hs⟩
  | call o k ih =>
    obtain ⟨r, s₁, hstep, hs₁⟩ := hK o hp.1 s hs
    obtain ⟨b, s', he, hs'⟩ := ih r (hp.2 r) hs₁
    exact ⟨b, s', ⟨r, s₁, hstep, he⟩, hs'⟩

theorem eval_of_run {E : Exec Res σ χ} {ok : χ → Prop} {p : Prog Res α} {cs : List χ} {a : α}
    (hok : ∀ c ∈ cs, ok c) (h : E.run t p cs s = some (a, s')) : p.Eval (E.machineOn ok) t s a s' := by
  induction p generalizing s cs with
  | ret b =>
    simp only [Exec.run, Option.some.injEq, Prod.mk.injEq] at h
    exact ⟨h.1.symm, h.2.symm⟩
  | call o k ih =>
    cases cs with
    | nil => simp [Exec.run] at h
    | cons c cs =>
      simp only [Exec.run, Option.bind_eq_some_iff] at h
      obtain ⟨⟨r, s₁⟩, hs, h⟩ := h
      exact ⟨r, s₁, ⟨c, hok c (by simp), hs⟩, ih r (fun c hc => hok c (by simp [hc])) h⟩

end Prog

end NginxAdmin
