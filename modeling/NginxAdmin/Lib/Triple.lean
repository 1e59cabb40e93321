import NginxAdmin.Lib.Pool

/-!
# Triples for programs that run among others

`P.Triple M t A p Q`: thread `t` may run `p` from any state satisfying `A`, and `p` ends in `Q`. The
rules follow the shape of a program: one for each operation (`Triple.perform`), one for sequencing
(`Triple.bind`, `Triple.tryBind` for programs that can fail), one for a program all of whose operations
respect the same assertion (`Triple.all`).
-/

namespace NginxAdmin

variable {Op : Type} {Res : Op → Type} {α β ε : Type} {σ : Type}

namespace Protocol

/-- `A` survives whatever the other threads do. -/
def Stable (P : Protocol σ) (t : Nat) (A : σ → Prop) : Prop :=
  ∀ s s', A s → P.rely t s s' → A s'

def Triple (P : Protocol σ) (M : Machine Res σ) (t : Nat) (A : σ → Prop) (p : Prog Res α)
    (Q : α → σ → Prop) : Prop :=
  ∀ s, A s → P.wp M t p Q s

variable {P : Protocol σ} {M : Machine Res σ} {t : Nat} {A A' : σ → Prop}

/-- What thread `t` must check of one operation: from `A`, its steps keep the promises and reach
`Q`, and so do its cancellations. -/
def Performs (P : Protocol σ) (M : Machine Res σ) (t : Nat) (A : σ → Prop) (o : Op)
    (Q : Res o → σ → Prop) : Prop :=
  ∀ s, A s → P.inv s →
    (∀ r s', M.step t o s r s' → P.guar t s s' ∧ Q r s') ∧ ∀ s', M.cancel t o s s' → P.guar t s s'

namespace Triple

variable {p : Prog Res α} {Q Q' : α → σ → Prop}

theorem conseq (h : P.Triple M t A p Q) (hA : ∀ s, A' s → A s)
    (hQ : ∀ a s, P.inv s → Q a s → Q' a s) : P.Triple M t A' p Q' :=
  fun s hs => wp_mono (h s (hA s hs)) hQ

theorem post (h : P.Triple M t A p Q) (hQ : ∀ a s, P.inv s → Q a s → Q' a s) : P.Triple M t A p Q' :=
  h.conseq (fun _ => id) hQ

theorem pure {a : α} (hA : P.Stable t A) (hQ : ∀ s, P.inv s → A s → Q a s) :
    P.Triple M t A (Pure.pure a) Q :=
  fun s hs s' hr hi => hQ s' hi (hA s s' hs hr)

theorem bind {p : Prog Res β} {f : β → Prog Res α} {B : β → σ → Prop} (hp : P.Triple M t A p B)
    (hf : ∀ b, P.Triple M t (B b) (f b) Q) : P.Triple M t A (p >>= f) Q :=
  fun s hs => wp_bind (wp_mono (hp s hs) fun b s' _ => hf b s')

theorem perform {o : Op} {Q : Res o → σ → Prop} (hA : P.Stable t A) (hQ : ∀ r, P.Stable t (Q r))
    (h : P.Performs M t A o Q) : P.Triple M t A (Prog.perform o) Q := by
  intro s hs s' hr hi
  obtain ⟨hstep, hcancel⟩ := h s' (hA s s' hs hr) hi
  exact ⟨fun r s'' h' => ⟨(hstep r s'' h').1, fun s₃ hr' _ => hQ r _ _ (hstep r s'' h').2 hr'⟩, hcancel⟩

theorem all {K : Op → Prop} (hA : P.Stable t A) (h : ∀ o, K o → P.Performs M t A o fun _ => A)
    (hp : p.All K) : P.Triple M t A p fun _ => A := by
  induction p with
  | ret a => exact fun s hs s' hr _ => hA s s' hs hr
  | call o k ih =>
    intro s hs s' hr hi
    obtain ⟨hstep, hcancel⟩ := h o hp.1 s' (hA s s' hs hr) hi
    exact ⟨fun r s'' h' => ⟨(hstep r s'' h').1, ih r (hp.2 r) s'' (hstep r s'' h').2⟩, hcancel⟩

theorem tryBind {x : ExceptT ε (Prog Res) β} {f : β → ExceptT ε (Prog Res) α}
    {B : Except ε β → σ → Prop} {Q : Except ε α → σ → Prop} (hx : P.Triple M t A x.run B)
    (hf : ∀ b, P.Triple M t (B (.ok b)) (f b).run Q) (hB : ∀ e, P.Stable t (B (.error e)))
    (hQ : ∀ e s, P.inv s → B (.error e) s → Q (.error e) s) : P.Triple M t A (x >>= f).run Q := by
  rw [ExceptT.run_bind]
  refine hx.bind fun r => ?_
  cases r with
  | ok b => exact hf b
  | error e => exact .pure (hB e) (hQ e)

/-- A program that runs alone from a good state does what its triple says. -/
theorem eval (h : P.Triple M t A p Q) {s s' : σ} {b : α} (hA : A s) (hi : P.inv s) (he : p.Eval M t s b s') :
    Q b s' ∧ P.inv s' := by
  have hw := h s hA
  clear h hA
  induction p generalizing s with
  | ret a =>
    obtain ⟨rfl, rfl⟩ := he
    exact ⟨wp_ret_elim hw hi, hi⟩
  | call o k ih =>
    obtain ⟨r, s₁, hs, he⟩ := he
    obtain ⟨hg, hw'⟩ := (hw s (P.refl _ _) hi).1 r s₁ hs
    exact ih r hg.1 he hw'

end Triple

/-- The protocol of a thread that runs alone: nothing happens behind its back, and it owes nothing. -/
def alone (t : Nat) : Protocol σ where
  rely u s s' := u = t → s' = s
  inv _ := True
  refl _ _ _ := rfl
  trans h h' hu := (h' hu).trans (h hu)

theorem stable_alone {t : Nat} (A : σ → Prop) : (alone t).Stable t A :=
  fun _ _ h hr => hr rfl ▸ h

theorem performs_alone {t : Nat} {A : σ → Prop} {o : Op} {Q : Res o → σ → Prop}
    (h : ∀ s, A s → ∀ r s', M.step t o s r s' → Q r s') : (alone t).Performs M t A o Q :=
  fun s hA _ => ⟨fun r s' hs => ⟨⟨trivial, fun _ hu he => absurd he hu⟩, h s hA r s' hs⟩,
    fun _ _ => ⟨trivial, fun _ hu he => absurd he hu⟩⟩

/-- The protocol of a thread that runs alone and keeps `I` at every moment. -/
def keeping (t : Nat) (I : σ → Prop) : Protocol σ := { alone t with inv := I }

theorem stable_keeping {t : Nat} {I : σ → Prop} (A : σ → Prop) : (keeping t I).Stable t A :=
  fun _ _ h hr => hr rfl ▸ h

theorem performs_keeping {t : Nat} {I A : σ → Prop} {o : Op} {Q : Res o → σ → Prop} (hcancel : ∀ s s', ¬ M.cancel t o s s')
    (h : ∀ s, A s → ∀ r s', M.step t o s r s' → I s' ∧ Q r s') : (keeping t I).Performs M t A o Q := by
  intro s hA hinv
  refine ⟨fun r s' hs => ?_, fun s' hc => absurd hc (hcancel s s')⟩
  obtain ⟨hI, hQ⟩ := h s hA r s' hs
  exact ⟨⟨hI, fun u hu he => absurd he hu⟩, hQ⟩

/-- One thread alone in a pool: `I` at every moment, and `Q` at the end. -/
theorem Triple.reach {α : Type} {t : Nat} {I A : σ → Prop} {p : Prog Res α} {Q : α → σ → Prop}
    (h : (keeping t I).Triple M t A p Q) {s : σ} (hA : A s) (hI : I s) {pool : Pool Res σ α}
    (hr : Pool.Reach M (.single t p s) pool) :
    I pool.shared ∧ ∀ a, pool.threads t = some (.ret a) → Q a pool.shared := by
  have hready : Ready (keeping t I) M (fun _ => Q) (.single t p s) := by
    refine ⟨hI, fun u q hq => ?_⟩
    obtain ⟨rfl, rfl⟩ := Pool.single_threads hq
    exact h s hA
  exact ⟨(hready.reach hr).1, fun a ha => (hready.reach hr).ret ha⟩

end Protocol

end NginxAdmin
