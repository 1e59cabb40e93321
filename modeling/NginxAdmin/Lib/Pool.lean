import NginxAdmin.Lib.Prog

/-!
# Interleavings, and invariants of interleavings

A `Pool` is a shared state and a family of threads; `Reach` is the reachability by any interleaving of
their operations, with any cancellations the machine allows.

Invariants are proved thread by thread. A `Protocol` says what every thread may assume of the others
(`rely`) and what holds at every moment (`inv`); `Protocol.wp` runs one program symbolically, letting
the others act before every operation, and `Protocol.sound` puts the threads together.
-/

namespace NginxAdmin

variable {Op : Type} {Res : Op → Type} {α β : Type} {σ χ : Type}

structure Pool (Res : Op → Type) (σ α : Type) where
  shared : σ
  threads : Nat → Option (Prog Res α)

namespace Pool

variable {M : Machine Res σ} {p p' p₀ : Pool Res σ α}

/-- Thread `t` moves the shared state to `s` and has `q` left to run (`none`: it was cancelled). -/
def move (p : Pool Res σ α) (t : Nat) (q : Option (Prog Res α)) (s : σ) : Pool Res σ α :=
  ⟨s, Function.update p.threads t q⟩

@[simp] theorem move_shared (p : Pool Res σ α) (t : Nat) (q : Option (Prog Res α)) (s : σ) :
    (p.move t q s).shared = s := rfl

@[simp] theorem move_threads_self (p : Pool Res σ α) (t : Nat) (q : Option (Prog Res α)) (s : σ) :
    (p.move t q s).threads t = q := Function.update_self ..

theorem move_threads_ne (p : Pool Res σ α) {t u : Nat} (h : u ≠ t) (q : Option (Prog Res α)) (s : σ) :
    (p.move t q s).threads u = p.threads u := Function.update_of_ne h ..

theorem move_threads_cases {t u : Nat} {q : Option (Prog Res α)} {q' : Prog Res α} {s : σ}
    (h : (p.move t q s).threads u = some q') : (u = t ∧ q = some q') ∨ (u ≠ t ∧ p.threads u = some q') := by
  by_cases hut : u = t
  · subst hut
    rw [move_threads_self] at h
    exact .inl ⟨rfl, h⟩
  · rw [move_threads_ne p hut] at h
    exact .inr ⟨hut, h⟩

/-- Thread `t` has the pool for itself. -/
def single (t : Nat) (q : Prog Res α) (s : σ) : Pool Res σ α := ⟨s, fun u => if u = t then some q else none⟩

@[simp] theorem single_shared (t : Nat) (q : Prog Res α) (s : σ) : (single t q s).shared = s := rfl

theorem single_threads {t u : Nat} {q q' : Prog Res α} {s : σ} (h : (single t q s).threads u = some q') :
    u = t ∧ q' = q := by
  have hu : (if u = t then some q else none) = some q' := h
  split at hu
  · rename_i he
    exact ⟨he, (Option.some.inj hu).symm⟩
  · cases hu

inductive Step (M : Machine Res σ) (p : Pool Res σ α) : Pool Res σ α → Prop
  | op {t : Nat} {o : Op} {k : Res o → Prog Res α} {r : Res o} {s : σ}
      (ht : p.threads t = some (.call o k)) (h : M.step t o p.shared r s) :
      Step M p (p.move t (some (k r)) s)
  | drop {t : Nat} {o : Op} {k : Res o → Prog Res α} {s : σ}
      (ht : p.threads t = some (.call o k)) (h : M.cancel t o p.shared s) :
      Step M p (p.move t none s)

inductive Reach (M : Machine Res σ) (p₀ : Pool Res σ α) : Pool Res σ α → Prop
  | refl : Reach M p₀ p₀
  | tail {p p' : Pool Res σ α} (h : Reach M p₀ p) (hs : Step M p p') : Reach M p₀ p'

theorem Reach.trans (h : Reach M p₀ p) (h' : Reach M p p') : Reach M p₀ p' := by
  induction h' with
  | refl => exact h
  | tail _ hs ih => exact ih.tail hs

/-- Reachability in a machine that can do at least what `M` can do from the states that `M` reaches. -/
theorem Reach.of_inv {M' : Machine Res σ} {I : σ → Prop} (h : Reach M p₀ p) (h₀ : I p₀.shared)
    (hs : ∀ t o s r s', I s → M.step t o s r s' → I s' ∧ M'.step t o s r s')
    (hc : ∀ t o s s', I s → M.cancel t o s s' → I s' ∧ M'.cancel t o s s') :
    I p.shared ∧ Reach M' p₀ p := by
  induction h with
  | refl => exact ⟨h₀, .refl⟩
  | tail _ hstep ih =>
    obtain ⟨hi, hr⟩ := ih
    cases hstep with
    | op ht h =>
      obtain ⟨hi', h'⟩ := hs _ _ _ _ _ hi h
      exact ⟨hi', hr.tail (.op ht h')⟩
    | drop ht h =>
      obtain ⟨hi', h'⟩ := hc _ _ _ _ hi h
      exact ⟨hi', hr.tail (.drop ht h')⟩

/-- A thread that has the pool for itself runs as if alone. -/
theorem Reach.eval {t : Nat} {q : Prog Res α} (h : Reach M p₀ p) (hq : p₀.threads t = some q)
    (hnone : ∀ u, u ≠ t → p₀.threads u = none) : (∀ u, u ≠ t → p.threads u = none) ∧
      ∀ q', p.threads t = some q' → ∀ a s, q'.Eval M t p.shared a s → q.Eval M t p₀.shared a s := by
  induction h with
  | refl =>
    refine ⟨hnone, fun q' hq' a s he => ?_⟩
    rw [hq, Option.some.injEq] at hq'
    exact hq' ▸ he
  | @tail p p' _ hs ih =>
    obtain ⟨hothers, hself⟩ := ih
    -- only `t` can act
    have mine : ∀ {u : Nat} {c : Prog Res α}, p.threads u = some c → u = t := fun hu => by
      by_contra hne
      rw [hothers _ hne] at hu
      cases hu
    cases hs with
    | @op u o k r s hu hstep =>
      obtain rfl := mine hu
      refine ⟨fun v hv => by rw [move_threads_ne p hv]; exact hothers v hv, fun q' hq' a s' he => ?_⟩
      rw [move_threads_self, Option.some.injEq] at hq'
      subst hq'
      exact hself _ hu a s' ⟨r, s, hstep, he⟩
    | @drop u o k s hu hcancel =>
      obtain rfl := mine hu
      refine ⟨fun v hv => by rw [move_threads_ne p hv]; exact hothers v hv, fun q' hq' => ?_⟩
      rw [move_threads_self] at hq'
      cases hq'

theorem Reach.of_eval {t : Nat} {q : Prog Res α} {a : α} {s' : σ} (hq : p.threads t = some q)
    (h : q.Eval M t p.shared a s') : ∃ p', Reach M p p' ∧ p'.threads t = some (.ret a) ∧ p'.shared = s' := by
  induction q generalizing p with
  | ret b =>
    obtain ⟨rfl, rfl⟩ := h
    exact ⟨p, .refl, hq, rfl⟩
  | call o k ih =>
    obtain ⟨r, s, hstep, h⟩ := h
    obtain ⟨p', hp', hret, hshared⟩ := @ih r (p.move t (some (k r)) s) (by rw [move_threads_self]) h
    exact ⟨p', (Reach.refl.tail (.op hq hstep)).trans hp', hret, hshared⟩

theorem Reach.returns {R : α → Prop} {t : Nat} (h : Reach M p₀ p) (h₀ : ∀ q, p₀.threads t = some q → q.Returns R) :
    ∀ q, p.threads t = some q → q.Returns R := by
  induction h with
  | refl => exact h₀
  | @tail p p' _ hs ih =>
    intro q hq
    cases hs with
    | @op u o k r s hu hstep =>
      rcases move_threads_cases hq with ⟨rfl, hk⟩ | ⟨-, hq⟩
      · cases hk
        exact ih _ hu r
      · exact ih q hq
    | @drop u o k s hu hcancel =>
      rcases move_threads_cases hq with ⟨-, hnone⟩ | ⟨-, hq⟩
      · cases hnone
      · exact ih q hq

/-- `I` holds at every moment of a run when the operations in `K`, to which every thread keeps, preserve it. -/
theorem Reach.all {K : Op → Prop} {I : σ → Prop} (h : Reach M p₀ p) (h₀ : I p₀.shared)
    (hK : ∀ t q, p₀.threads t = some q → q.All K)
    (hs : ∀ t o s r s', K o → I s → M.step t o s r s' → I s')
    (hc : ∀ t o s s', I s → M.cancel t o s s' → I s') :
    I p.shared ∧ ∀ t q, p.threads t = some q → q.All K := by
  induction h with
  | refl => exact ⟨h₀, hK⟩
  | @tail p p' _ hstep ih =>
    obtain ⟨hi, hall⟩ := ih
    cases hstep with
    | @op t o k r s ht h =>
      refine ⟨hs t o _ r s (hall t _ ht).1 hi h, fun u q hu => ?_⟩
      rcases move_threads_cases hu with ⟨rfl, hk⟩ | ⟨-, hu⟩
      · cases hk
        exact (hall _ _ ht).2 r
      · exact hall u q hu
    | @drop t o k s ht h =>
      refine ⟨hc t o _ s hi h, fun u q hu => ?_⟩
      rcases move_threads_cases hu with ⟨-, hnone⟩ | ⟨-, hu⟩
      · cases hnone
      · exact hall u q hu

end Pool

/-- One decision of a scheduler: let thread `t` do its next operation, or cancel it. -/
inductive Turn (χ : Type) where
  | op (t : Nat) (c : χ)
  | drop (t : Nat)

def Turn.isOp : Turn χ → Bool
  | op .. => true
  | drop _ => false

namespace Exec

def turn (E : Exec Res σ χ) (p : Pool Res σ α) : Turn χ → Option (Pool Res σ α)
  | .op t c =>
    match p.threads t with
    | some (.call o k) =>
      (E.step t o c p.shared).map fun a => p.move t (some (k a.1)) a.2
    | _ => none
  | .drop t =>
    match p.threads t with
    | some (.call o _) => (E.cancel t o p.shared).map (p.move t none)
    | _ => none

def schedule (E : Exec Res σ χ) : List (Turn χ) → Pool Res σ α → Option (Pool Res σ α)
  | [], p => some p
  | a :: as, p => (E.turn p a).bind (E.schedule as)

theorem step_of_turn {E : Exec Res σ χ} {p p' : Pool Res σ α} {a : Turn χ}
    (h : E.turn p a = some p') : p.Step E.machine p' ∧ (a.isOp → p.Step E.machine.noDrops p') := by
  cases a with
  | op t c =>
    simp only [turn] at h
    split at h
    · rename_i o k ht
      obtain ⟨⟨r, s⟩, hs, rfl⟩ := Option.map_eq_some_iff.1 h
      exact ⟨.op ht ⟨c, trivial, hs⟩, fun _ => .op ht ⟨c, trivial, hs⟩⟩
    · cases h
  | drop t =>
    simp only [turn] at h
    split at h
    · rename_i o k ht
      obtain ⟨s, hs, rfl⟩ := Option.map_eq_some_iff.1 h
      exact ⟨.drop ht hs, fun h => by cases h⟩
    · cases h

theorem reach_of_schedule {E : Exec Res σ χ} {as : List (Turn χ)} {p p' : Pool Res σ α}
    (h : E.schedule as p = some p') : p.Reach E.machine p' := by
  induction as generalizing p with
  | nil => cases h; exact .refl
  | cons a as ih =>
    obtain ⟨q, hq, h⟩ := Option.bind_eq_some_iff.1 h
    exact (Pool.Reach.refl.tail (step_of_turn hq).1).trans (ih h)

theorem reach_noDrops_of_schedule {E : Exec Res σ χ} {as : List (Turn χ)} {p p' : Pool Res σ α}
    (hop : as.all Turn.isOp) (h : E.schedule as p = some p') : p.Reach E.machine.noDrops p' := by
  induction as generalizing p with
  | nil => cases h; exact .refl
  | cons a as ih =>
    obtain ⟨q, hq, h⟩ := Option.bind_eq_some_iff.1 h
    rw [List.all_cons, Bool.and_eq_true] at hop
    exact (Pool.Reach.refl.tail ((step_of_turn hq).2 hop.1)).trans (ih hop.2 h)

/-- Turns of operations only, with decisions in `ok`. -/
theorem reach_noDrops_on_of_schedule {E : Exec Res σ χ} {ok : χ → Prop} {as : List (Turn χ)} {p p' : Pool Res σ α}
    (hok : ∀ a ∈ as, ∃ t c, a = .op t c ∧ ok c) (h : E.schedule as p = some p') :
    p.Reach (E.machineOn ok).noDrops p' := by
  induction as generalizing p with
  | nil => cases h; exact .refl
  | cons a as ih =>
    obtain ⟨q, hq, h⟩ := Option.bind_eq_some_iff.1 h
    obtain ⟨⟨t, c, rfl, hc⟩, hrest⟩ := List.forall_mem_cons.1 hok
    simp only [turn] at hq
    split at hq
    · rename_i o k ht
      obtain ⟨⟨r, s⟩, hs, rfl⟩ := Option.map_eq_some_iff.1 hq
      have hstep : (E.machineOn ok).noDrops.step t o p.shared r s := ⟨c, hc, hs⟩
      exact (Pool.Reach.refl.tail (.op ht hstep)).trans (ih hrest h)
    · cases hq

theorem reach_on_of_schedule {E : Exec Res σ χ} {ok : χ → Prop} {as : List (Turn χ)} {p p' : Pool Res σ α}
    (hok : ∀ t c, .op t c ∈ as → ok c) (h : E.schedule as p = some p') : p.Reach (E.machineOn ok) p' := by
  induction as generalizing p with
  | nil => cases h; exact .refl
  | cons a as ih =>
    obtain ⟨q, hq, h⟩ := Option.bind_eq_some_iff.1 h
    have hrest : q.Reach (E.machineOn ok) p' := ih (fun t c hc => hok t c (List.mem_cons_of_mem _ hc)) h
    refine (Pool.Reach.refl.tail ?_).trans hrest
    cases a with
    | op t c =>
      simp only [turn] at hq
      split at hq
      · rename_i o k ht
        obtain ⟨⟨r, s⟩, hs, rfl⟩ := Option.map_eq_some_iff.1 hq
        exact .op ht ⟨c, hok t c List.mem_cons_self, hs⟩
      · cases hq
    | drop t =>
      simp only [turn] at hq
      split at hq
      · rename_i o k ht
        obtain ⟨s, hs, rfl⟩ := Option.map_eq_some_iff.1 hq
        exact .drop ht hs
      · cases hq

/-- The same machine, stopped by a step outside `ok` or a cancellation outside `okDrop`. -/
def guarded (E : Exec Res σ χ) (ok : Nat → Op → σ → σ → Bool) (okDrop : Nat → Op → σ → Bool) : Exec Res σ χ where
  step t o c s := (E.step t o c s).bind fun a => if ok t o s a.2 then some a else none
  cancel t o s := if okDrop t o s then E.cancel t o s else none

theorem reach_restrict_of_schedule {E : Exec Res σ χ} {ok : Nat → Op → σ → σ → Bool}
    {okDrop : Nat → Op → σ → Bool} {K : Nat → (o : Op) → σ → Res o → σ → Prop} {D : Nat → Op → σ → Prop}
    (hK : ∀ t o s r s', ok t o s s' → K t o s r s') (hD : ∀ t o s, okDrop t o s → D t o s)
    {as : List (Turn χ)} {p p' : Pool Res σ α} (h : (E.guarded ok okDrop).schedule as p = some p') :
    p.Reach (E.machine.restrict K D) p' := by
  refine ((reach_of_schedule h).of_inv (I := fun _ => True) trivial ?_ ?_).2
  · rintro t o s r s' - ⟨c, -, hs⟩
    obtain ⟨a, ha, hs⟩ := Option.bind_eq_some_iff.1 hs
    split at hs
    · rename_i hok
      cases hs
      exact ⟨trivial, ⟨c, trivial, ha⟩, hK _ _ _ _ _ hok⟩
    · cases hs
  · rintro t o s s' - hs
    simp only [guarded, machineOn] at hs
    split at hs
    · rename_i hok
      exact ⟨trivial, hs, hD _ _ _ hok⟩
    · cases hs

end Exec

/-- `rely t s s'`: what thread `t` may assume when the other threads take the state from `s` to `s'`.
`inv` holds whenever no operation is half done. -/
structure Protocol (σ : Type) where
  rely : Nat → σ → σ → Prop
  inv : σ → Prop
  refl : ∀ t s, rely t s s
  trans : ∀ {t s s' s''}, rely t s s' → rely t s' s'' → rely t s s''

namespace Protocol

variable (P : Protocol σ) (M : Machine Res σ)

/-- What a step of thread `t` owes to the others. -/
def guar (t : Nat) (s s' : σ) : Prop := P.inv s' ∧ ∀ u, u ≠ t → P.rely u s s'

/-- Thread `t` may run `p` from `s`: every step keeps its promises, and when `p` returns `a` the
state satisfies `Q a`. -/
def wp (t : Nat) : Prog Res α → (α → σ → Prop) → σ → Prop
  | .ret a, Q, s => ∀ s', P.rely t s s' → P.inv s' → Q a s'
  | .call o k, Q, s => ∀ s', P.rely t s s' → P.inv s' →
      (∀ r s'', M.step t o s' r s'' → P.guar t s' s'' ∧ wp t (k r) Q s'') ∧
      ∀ s'', M.cancel t o s' s'' → P.guar t s' s''

variable {P M} {t : Nat} {s s' : σ} {Q Q' : α → σ → Prop}

theorem wp_rely {p : Prog Res α} (h : P.wp M t p Q s) (hr : P.rely t s s') : P.wp M t p Q s' := by
  cases p with
  | ret a => exact fun s'' hr' => h s'' (P.trans hr hr')
  | call o k => exact fun s'' hr' => h s'' (P.trans hr hr')

theorem wp_mono {p : Prog Res α} (h : P.wp M t p Q s) (hQ : ∀ a s, P.inv s → Q a s → Q' a s) :
    P.wp M t p Q' s := by
  induction p generalizing s with
  | ret a => exact fun s' hr hi => hQ a s' hi (h s' hr hi)
  | call o k ih =>
    intro s' hr hi
    obtain ⟨hs, hc⟩ := h s' hr hi
    exact ⟨fun r s'' h' => ⟨(hs r s'' h').1, ih r (hs r s'' h').2⟩, hc⟩

theorem wp_ret_elim {a : α} (h : P.wp M t (.ret a) Q s) (hi : P.inv s) : Q a s :=
  h s (P.refl _ _) hi

theorem wp_bind {p : Prog Res β} {f : β → Prog Res α}
    (h : P.wp M t p (fun b => P.wp M t (f b) Q) s) : P.wp M t (p >>= f) Q s := by
  induction p generalizing s with
  | ret b =>
    show P.wp M t (f b) Q s
    cases hf : f b with
    | ret a =>
      intro s' hr hi
      have := h s' hr hi
      simp only [hf] at this
      exact wp_ret_elim this hi
    | call o k =>
      intro s' hr hi
      have := h s' hr hi
      simp only [hf] at this
      exact this s' (P.refl _ _) hi
  | call o k ih =>
    intro s' hr hi
    obtain ⟨hs, hc⟩ := h s' hr hi
    exact ⟨fun r s'' h' => ⟨(hs r s'' h').1, ih r (hs r s'' h').2⟩, hc⟩

/-- Every thread of `p` may run on. -/
def Ready (P : Protocol σ) (M : Machine Res σ) (Q : Nat → α → σ → Prop) (p : Pool Res σ α) : Prop :=
  P.inv p.shared ∧ ∀ t q, p.threads t = some q → P.wp M t q (Q t) p.shared

theorem Ready.step {Q : Nat → α → σ → Prop} {p p' : Pool Res σ α} (h : Ready P M Q p)
    (hs : p.Step M p') :
    Ready P M Q p' ∧ ∃ t, p.threads t ≠ none ∧ (∀ u, u ≠ t → p'.threads u = p.threads u) ∧
      P.guar t p.shared p'.shared := by
  obtain ⟨hi, hw⟩ := h
  -- the acting thread goes on by its own `wp`, the others by `wp_rely`
  have others : ∀ (t : Nat) (s : σ) (q' : Option (Prog Res α)), (∀ u, u ≠ t → P.rely u p.shared s) →
      (∀ q, q' = some q → P.wp M t q (Q t) s) →
      ∀ u q, (p.move t q' s).threads u = some q → P.wp M u q (Q u) s := by
    intro t s q' hg hself u q hu
    rcases Pool.move_threads_cases hu with ⟨rfl, hq⟩ | ⟨hut, hu⟩
    · exact hself q hq
    · exact wp_rely (hw u q hu) (hg u hut)
  cases hs with
  | @op t o k r s ht h =>
    obtain ⟨⟨hi', hg⟩, hk⟩ := (hw t _ ht _ (P.refl _ _) hi).1 r s h
    refine ⟨⟨hi', others t s _ hg fun q hq => ?_⟩, t, by simp [ht], fun u hu => Pool.move_threads_ne p hu _ _,
      hi', hg⟩
    cases hq; exact hk
  | @drop t o k s ht h =>
    obtain ⟨hi', hg⟩ := (hw t _ ht _ (P.refl _ _) hi).2 s h
    exact ⟨⟨hi', others t s _ hg fun q hq => by cases hq⟩, t, by simp [ht],
      fun u hu => Pool.move_threads_ne p hu _ _, hi', hg⟩

theorem Ready.reach {Q : Nat → α → σ → Prop} {p₀ p : Pool Res σ α} (h : Ready P M Q p₀)
    (hr : p₀.Reach M p) : Ready P M Q p := by
  induction hr with
  | refl => exact h
  | tail _ hs ih => exact (ih.step hs).1

theorem Ready.ret {Q : Nat → α → σ → Prop} {p : Pool Res σ α} (h : Ready P M Q p) {t : Nat} {a : α}
    (ht : p.threads t = some (.ret a)) : Q t a p.shared :=
  wp_ret_elim (h.2 t _ ht) h.1

/-- What a bystander (a thread number that is not in use) sees of a run. -/
theorem Ready.rely {Q : Nat → α → σ → Prop} {p p' : Pool Res σ α} (h : Ready P M Q p) {u : Nat}
    (hu : p.threads u = none) (hr : p.Reach M p') :
    p'.threads u = none ∧ P.rely u p.shared p'.shared := by
  induction hr with
  | refl => exact ⟨hu, P.refl _ _⟩
  | tail hq hs ih =>
    obtain ⟨hun, hrel⟩ := ih
    obtain ⟨_, t, ht, heq, _, hg⟩ := (h.reach hq).step hs
    have hut : u ≠ t := fun e => ht (e ▸ hun)
    exact ⟨by rw [heq u hut]; exact hun, P.trans hrel (hg u hut)⟩

end Protocol

end NginxAdmin
