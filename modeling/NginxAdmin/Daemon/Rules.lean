import NginxAdmin.Daemon.Apply
import NginxAdmin.Lib.Triple

/-!
# Rules for the daemon's programs

The triples of `Lib.Triple` for the ways in which the daemon's code is written: `ask`, `attempt`, `check`
and `whenever` followed by the rest of the function.
-/

namespace NginxAdmin.Daemon

open Protocol

variable {σ α β : Type} {P : Protocol σ} {M : Machine Op.Res σ} {t : Nat} {A : σ → Prop}
  {Q : Except DaemonError α → σ → Prop}

theorem run_ask (o : Op) : (ask o).run = perform o >>= fun r => pure (.ok r) := rfl

theorem run_attempt (p : Code (Except String α)) :
    (attempt p).run = p >>= fun r => pure (r.mapError DaemonError.io) := rfl

theorem run_check (e : Except DaemonError α) : (check e).run = pure e := rfl

theorem triple_ask {o : Op} {f : o.Res → Fallible α} {B : o.Res → σ → Prop} (hA : P.Stable t A)
    (hB : ∀ r, P.Stable t (B r)) (ho : P.Performs M t A o B)
    (hf : ∀ r, P.Triple M t (B r) (f r).run Q) : P.Triple M t A (ask o >>= f).run Q := by
  refine Triple.tryBind (B := fun r s => match r with | .ok r => B r s | .error _ => False) ?_ hf ?_ ?_
  · rw [run_ask]
    exact (Triple.perform hA hB ho).bind fun r => .pure (hB r) fun _ _ h => h
  · exact fun _ _ _ h => h.elim
  · exact fun _ _ _ h => h.elim

theorem triple_attempt {p : Code (Except String β)} {f : β → Fallible α} {B : Except String β → σ → Prop}
    (hp : P.Triple M t A p B) (hB : ∀ r, P.Stable t (B r))
    (hf : ∀ b, P.Triple M t (B (.ok b)) (f b).run Q)
    (hQ : ∀ e s, P.inv s → B (.error e) s → Q (.error (.io e)) s) :
    P.Triple M t A (attempt p >>= f).run Q := by
  refine Triple.tryBind (B := fun r s => match r with
    | .ok b => B (.ok b) s
    | .error e => ∃ m, e = .io m ∧ B (.error m) s) ?_ hf ?_ ?_
  · rw [run_attempt]
    refine hp.bind fun r => .pure (hB r) fun s _ h => ?_
    cases r with
    | ok b => exact h
    | error m => exact ⟨m, rfl, h⟩
  · rintro e s s' ⟨m, he, h⟩ hr
    exact ⟨m, he, hB _ s s' h hr⟩
  · rintro e s hi ⟨m, rfl, h⟩
    exact hQ m s hi h

theorem triple_lift {p : Code β} {f : β → Fallible α} {B : β → σ → Prop} (hp : P.Triple M t A p B)
    (hf : ∀ b, P.Triple M t (B b) (f b).run Q) : P.Triple M t A (ExceptT.lift p >>= f).run Q := by
  rw [ExceptT.run_bind_lift]
  exact hp.bind hf

theorem triple_check {e : Except DaemonError β} {f : β → Fallible α} (hA : P.Stable t A)
    (hf : ∀ b, e = .ok b → P.Triple M t A (f b).run Q)
    (hQ : ∀ err s, e = .error err → P.inv s → A s → Q (.error err) s) :
    P.Triple M t A (check e >>= f).run Q := by
  rw [ExceptT.run_bind, run_check, pure_bind]
  cases e with
  | ok b => exact hf b rfl
  | error err => exact .pure hA fun s hi h => hQ err s rfl hi h

theorem triple_whenever {c : Bool} {x : Fallible Unit} {f : Unit → Fallible α}
    (ht : c = true → P.Triple M t A (x >>= f).run Q) (hf : c = false → P.Triple M t A (f ()).run Q) :
    P.Triple M t A (whenever c x >>= f).run Q := by
  cases c with
  | true => exact ht rfl
  | false => exact hf rfl

theorem triple_throw {e : DaemonError} (hA : P.Stable t A) (hQ : ∀ s, P.inv s → A s → Q (.error e) s) :
    P.Triple M t A (throw e : Fallible α).run Q :=
  .pure hA hQ

theorem triple_pure {a : α} (hA : P.Stable t A) (hQ : ∀ s, P.inv s → A s → Q (.ok a) s) :
    P.Triple M t A (pure a : Fallible α).run Q :=
  .pure hA hQ

variable {s s' : σ} {r : Except DaemonError α}

theorem eval_tryBind {x : Fallible β} {f : β → Fallible α} : (x >>= f).run.Eval M t s r s' ↔
    ∃ b s₁, x.run.Eval M t s b s₁ ∧ match b with
      | .ok b => (f b).run.Eval M t s₁ r s'
      | .error e => r = .error e ∧ s' = s₁ := by
  rw [ExceptT.run_bind, Prog.eval_bind]
  refine exists_congr fun b => exists_congr fun s₁ => and_congr_right fun _ => ?_
  cases b with
  | ok b => exact Iff.rfl
  | error e => exact Prog.eval_pure

theorem eval_ask {o : Op} {f : o.Res → Fallible α} : (ask o >>= f).run.Eval M t s r s' ↔
    ∃ a s₁, M.step t o s a s₁ ∧ (f a).run.Eval M t s₁ r s' := by
  rw [ask, ExceptT.run_bind_lift, Prog.eval_bind]
  simp only [Prog.eval_perform]

theorem eval_attempt {p : Code (Except String β)} {f : β → Fallible α} :
    (attempt p >>= f).run.Eval M t s r s' ↔ ∃ b s₁, p.Eval M t s b s₁ ∧ match b with
      | .ok b => (f b).run.Eval M t s₁ r s'
      | .error e => r = .error (.io e) ∧ s' = s₁ := by
  rw [eval_tryBind]
  simp only [run_attempt, Prog.eval_bind, Prog.eval_pure]
  constructor
  · rintro ⟨_, _, ⟨b, s₁, hp, rfl, rfl⟩, h⟩
    cases b with
    | ok b => exact ⟨.ok b, _, hp, h⟩
    | error e => exact ⟨.error e, _, hp, h⟩
  · rintro ⟨b, s₁, hp, h⟩
    cases b with
    | ok b => exact ⟨_, s₁, ⟨.ok b, s₁, hp, rfl, rfl⟩, h⟩
    | error e => exact ⟨_, s₁, ⟨.error e, s₁, hp, rfl, rfl⟩, h⟩

theorem eval_lift {p : Code β} {f : β → Fallible α} : (ExceptT.lift p >>= f).run.Eval M t s r s' ↔
    ∃ b s₁, p.Eval M t s b s₁ ∧ (f b).run.Eval M t s₁ r s' := by
  rw [ExceptT.run_bind_lift, Prog.eval_bind]

variable {K : Op → Prop}

theorem all_bind {x : Fallible β} {f : β → Fallible α} (hx : x.run.All K) (hf : ∀ b, (f b).run.All K) :
    (x >>= f).run.All K :=
  hx.tryBind hf

theorem all_check (e : Except DaemonError α) : (check e).run.All K := trivial

/-- What follows a check may rely on it. -/
theorem all_check_bind {e : Except DaemonError β} {f : β → Fallible α} (hf : ∀ b, e = .ok b → (f b).run.All K) :
    (check e >>= f).run.All K := by
  rw [ExceptT.run_bind, run_check, pure_bind]
  cases e with
  | ok b => exact hf b rfl
  | error err => exact trivial

theorem all_ask {o : Op} (h : K o) : (ask o).run.All K := ⟨h, fun _ => trivial⟩

theorem all_attempt {p : Code (Except String α)} (h : p.All K) :
    (attempt p).run.All K :=
  h.bind fun _ => trivial

theorem all_whenever {c : Bool} {x : Fallible Unit} (h : x.run.All K) : (whenever c x).run.All K := by
  cases c with
  | true => exact h
  | false => exact trivial

end NginxAdmin.Daemon
