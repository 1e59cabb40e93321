import NginxAdmin.Lib.Pool
import Mathlib.Data.DFinsupp.WellFounded

/-!
# Progress of interleavings

A `Discipline` says what a thread holds and which operations it may ask for while it holds that; `Prog.Moves` is a
program that keeps to it. In a pool of such programs a thread that holds at least as much as any other can go on
(`Obeyed.progress`), and no run of finitely many threads is infinite (`Pool.not_infinite`): a run that cannot go on has
finished.
-/

namespace NginxAdmin

variable {Op : Type} {Res : Op → Type} {α β : Type} {σ H : Type}

namespace Prog

/-- The program, run by a thread that holds `h`, only asks for operations that `after` allows, and ends with `h'`. -/
def Moves (after : H → Op → Option H) : Prog Res α → H → H → Prop
  | ret _, h, h' => h = h'
  | call o k, h, h' => ∃ h₁, after h o = some h₁ ∧ ∀ r, (k r).Moves after h₁ h'

variable {after : H → Op → Option H} {h h₁ h' : H}

theorem Moves.bind {p : Prog Res α} {f : α → Prog Res β} (hp : p.Moves after h h₁)
    (hf : ∀ a, (f a).Moves after h₁ h') : (p >>= f).Moves after h h' := by
  induction p generalizing h with
  | ret a =>
    obtain rfl : h = h₁ := hp
    exact hf a
  | call o k ih =>
    obtain ⟨h₂, ho, hk⟩ := hp
    exact ⟨h₂, ho, fun r => ih r (hk r)⟩

theorem Moves.pure (a : α) : (Pure.pure a : Prog Res α).Moves after h h := rfl

theorem Moves.perform {o : Op} (ho : after h o = some h') : (perform o : Prog Res _).Moves after h h' :=
  ⟨h', ho, fun _ => rfl⟩

/-- A program whose operations all leave `h` alone. -/
theorem All.moves {p : Prog Res α} (hp : p.All fun o => after h o = some h) : p.Moves after h h := by
  induction p with
  | ret a => rfl
  | call o k ih => exact ⟨h, hp.1, fun r => ih r (hp.2 r)⟩

theorem Moves.tryBind {ε : Type} {x : ExceptT ε (Prog Res) α} {f : α → ExceptT ε (Prog Res) β}
    (hx : x.run.Moves after h h') (hf : ∀ a, (f a).run.Moves after h' h') : (x >>= f).run.Moves after h h' := by
  rw [ExceptT.run_bind]
  refine hx.bind fun r => ?_
  cases r with
  | ok a => exact hf a
  | error e => exact .pure _

/-- What a step of a thread leaves of its program. -/
inductive Left : Option (Prog Res α) → Option (Prog Res α) → Prop
  | op (o : Op) (k : Res o → Prog Res α) (r : Res o) : Left (some (k r)) (some (call o k))
  | drop (o : Op) (k : Res o → Prog Res α) : Left none (some (call o k))

theorem not_left_none {q : Option (Prog Res α)} : ¬ Left q none := fun h => by cases h

theorem left_wf : WellFounded (Left : Option (Prog Res α) → Option (Prog Res α) → Prop) := by
  have hnone : Acc (Left : Option (Prog Res α) → _ → Prop) none := ⟨_, fun q hq => by cases hq⟩
  refine ⟨fun p => ?_⟩
  cases p with
  | none => exact hnone
  | some p =>
    induction p with
    | ret a => exact ⟨_, fun q hq => by cases hq⟩
    | call o k ih =>
      refine ⟨_, fun q hq => ?_⟩
      cases hq with
      | op _ _ r => exact ih r
      | drop => exact hnone

end Prog

namespace Pool

variable {M : Machine Res σ} {p p' : Pool Res σ α}

theorem Step.left (h : p.Step M p') :
    ∃ t, Prog.Left (p'.threads t) (p.threads t) ∧ ∀ u, u ≠ t → p'.threads u = p.threads u := by
  cases h with
  | @op t o k r s ht hstep =>
    refine ⟨t, ?_, fun u hu => move_threads_ne p hu _ _⟩
    rw [move_threads_self, ht]
    exact .op o k r
  | @drop t o k s ht hcancel =>
    refine ⟨t, ?_, fun u hu => move_threads_ne p hu _ _⟩
    rw [move_threads_self, ht]
    exact .drop o k

/-- Only the first `n` threads are in use. -/
def Within (n : Nat) (p : Pool Res σ α) : Prop := ∀ t, n ≤ t → p.threads t = none

theorem Within.step {n : Nat} (hp : p.Within n) (h : p.Step M p') : p'.Within n := by
  intro t ht
  obtain ⟨u, hleft, hothers⟩ := h.left
  by_cases hut : t = u
  · subst hut
    exact absurd (hp t ht ▸ hleft) Prog.not_left_none
  · rw [hothers t hut, hp t ht]

theorem Within.reach {n : Nat} (hp : p.Within n) (h : p.Reach M p') : p'.Within n := by
  induction h with
  | refl => exact hp
  | tail _ hs ih => exact ih.step hs

/-- A step shortens the program of one thread. -/
theorem step_wf (M : Machine Res σ) (n : Nat) :
    WellFounded fun p' p : Pool Res σ α => p.Step M p' ∧ p.Within n := by
  refine Subrelation.wf ?_ (InvImage.wf (fun (p : Pool Res σ α) (i : Fin n) => p.threads i)
    (Pi.Lex.wellFounded (· < ·) fun _ => Prog.left_wf))
  rintro p' p ⟨hstep, hp⟩
  obtain ⟨t, hleft, hothers⟩ := hstep.left
  have ht : t < n := by
    by_contra hn
    exact Prog.not_left_none (hp t (Nat.le_of_not_lt hn) ▸ hleft)
  exact ⟨⟨t, ht⟩, fun u hu => hothers u (by have := Fin.lt_def.1 hu; simp only at this; omega), hleft⟩

theorem not_infinite {n : Nat} (hp : p.Within n) :
    ¬ ∃ run : Nat → Pool Res σ α, run 0 = p ∧ ∀ i, (run i).Step M (run (i + 1)) := by
  rintro ⟨run, rfl, hrun⟩
  have hwithin : ∀ i, (run i).Within n := fun i => by
    induction i with
    | zero => exact hp
    | succ i ih => exact ih.step (hrun i)
  exact (wellFounded_iff_isEmpty_descending_chain.1 (step_wf M n)).false ⟨run, fun i => ⟨hrun i, hwithin i⟩⟩

end Pool

/-- `holds s t` is what thread `t` holds in state `s`, and `after h o` what a thread that holds `h` holds after `o`, if
it may ask for `o`. A cancelled thread gives everything back. -/
structure Discipline (M : Machine Res σ) (H : Type) where
  free : H
  holds : σ → Nat → H
  after : H → Op → Option H
  step : ∀ {t : Nat} {o : Op} {s s' : σ} {r : Res o} {h : H}, M.step t o s r s' → after (holds s t) o = some h →
    holds s' t = h ∧ ∀ u, u ≠ t → holds s' u = holds s u
  cancel : ∀ {t : Nat} {o : Op} {s s' : σ}, M.cancel t o s s' →
    holds s' t = free ∧ ∀ u, u ≠ t → holds s' u = holds s u

namespace Discipline

variable {M : Machine Res σ} {D : Discipline M H} {p p' : Pool Res σ α}

/-- Every thread keeps to the discipline with what it holds now. -/
structure Obeyed (D : Discipline M H) (p : Pool Res σ α) : Prop where
  moves : ∀ t q, p.threads t = some q → q.Moves D.after (D.holds p.shared t) D.free
  gone : ∀ t, p.threads t = none → D.holds p.shared t = D.free

namespace Obeyed

/-- Whoever holds something is in the middle of its program. -/
theorem of_holds (h : D.Obeyed p) {t : Nat} (ht : D.holds p.shared t ≠ D.free) :
    ∃ o k, p.threads t = some (.call o k) := by
  cases hq : p.threads t with
  | none => exact absurd (h.gone t hq) ht
  | some q =>
    cases q with
    | ret a => exact absurd (h.moves t _ hq) ht
    | call o k => exact ⟨o, k, rfl⟩

theorem step (h : D.Obeyed p) (hs : p.Step M p') : D.Obeyed p' := by
  cases hs with
  | @op t o k r s ht hstep =>
    obtain ⟨h₁, hafter, hk⟩ := h.moves t _ ht
    obtain ⟨hself, hothers⟩ := D.step hstep hafter
    refine ⟨fun u q hu => ?_, fun u hu => ?_⟩
    · rcases Pool.move_threads_cases hu with ⟨rfl, hq⟩ | ⟨hut, hu⟩
      · cases hq
        rw [Pool.move_shared, hself]
        exact hk r
      · rw [Pool.move_shared, hothers u hut]
        exact h.moves u q hu
    · by_cases hut : u = t
      · subst hut
        rw [Pool.move_threads_self] at hu
        cases hu
      · rw [Pool.move_threads_ne p hut] at hu
        rw [Pool.move_shared, hothers u hut]
        exact h.gone u hu
  | @drop t o k s ht hcancel =>
    obtain ⟨hself, hothers⟩ := D.cancel hcancel
    refine ⟨fun u q hu => ?_, fun u hu => ?_⟩
    · rcases Pool.move_threads_cases hu with ⟨-, hq⟩ | ⟨hut, hu⟩
      · cases hq
      · rw [Pool.move_shared, hothers u hut]
        exact h.moves u q hu
    · by_cases hut : u = t
      · subst hut
        exact hself
      · rw [Pool.move_threads_ne p hut] at hu
        rw [Pool.move_shared, hothers u hut]
        exact h.gone u hu

theorem reach (h : D.Obeyed p) (hr : p.Reach M p') : D.Obeyed p' := by
  induction hr with
  | refl => exact h
  | tail _ hs ih => exact ih.step hs

/-- When an operation is enabled for whoever holds the most, some thread can go on. -/
theorem progress (h : D.Obeyed p) {n : Nat} (hn : p.Within n) (rank : H → Nat) (hfree : rank D.free = 0)
    {M' : Machine Res σ}
    (henabled : ∀ t o s h', D.after (D.holds s t) o = some h' → (∀ u, rank (D.holds s u) ≤ rank (D.holds s t)) →
      ∃ r s', M'.step t o s r s')
    {t : Nat} {o : Op} {k : Res o → Prog Res α} (ht : p.threads t = some (.call o k)) : ∃ p', p.Step M' p' := by
  classical
  let running := (Finset.range n).filter fun u => ∃ o k, p.threads u = some (.call o k)
  have hmem : ∀ u, u ∈ running ↔ ∃ o k, p.threads u = some (.call o k) := fun u => by
    simp only [running, Finset.mem_filter, Finset.mem_range, and_iff_right_iff_imp]
    rintro ⟨o, k, hu⟩
    by_contra hle
    rw [hn u (Nat.le_of_not_lt hle)] at hu
    cases hu
  obtain ⟨u, hu, hmax⟩ := running.exists_max_image (fun u => rank (D.holds p.shared u)) ⟨t, (hmem t).2 ⟨o, k, ht⟩⟩
  obtain ⟨o', k', hu⟩ := (hmem u).1 hu
  obtain ⟨h', hafter, -⟩ := h.moves u _ hu
  -- whoever does not run holds nothing
  have hmost : ∀ v, rank (D.holds p.shared v) ≤ rank (D.holds p.shared u) := fun v => by
    by_cases hv : D.holds p.shared v = D.free
    · rw [hv, hfree]
      exact Nat.zero_le _
    · exact hmax v ((hmem v).2 (h.of_holds hv))
  obtain ⟨r, s', hstep⟩ := henabled u o' p.shared h' hafter hmost
  exact ⟨_, .op hu hstep⟩

end Obeyed

end Discipline

end NginxAdmin
