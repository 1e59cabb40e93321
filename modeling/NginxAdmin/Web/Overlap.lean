import NginxAdmin.Web.Projection

/-!
# Operations of `RoutesProcess` that overlap

Any number of operations are under way. The gateway executes the requests one at a time, in any order, and a response
may arrive any time after that; the projection is then changed as the operation says, whatever has arrived before.

The responses on their way, applied in the order of their execution, would make the projection show the routes of the
gateway (`Agrees`). A response may overtake those that it does not conflict with.
-/

namespace NginxAdmin.Web

abbrev Answer := Operation × Except Thrown Response

namespace Answer

/-- What an answer does to the map that is shown. -/
def effect (a : Answer) (m : RouteMap) : RouteMap :=
  match a.2 with
  | .ok response => response.effect m
  | .error _ => m

/-- Both write one id; a listing writes every id. -/
def conflicts (a b : Answer) : Bool :=
  match a.2, b.2 with
  | .ok (.route r), .ok (.route r') => r.id = r'.id
  | .ok _, .ok _ => true
  | _, _ => false

def Proper (a : Answer) : Prop := ∀ response, a.2 = .ok response → response.Proper

def effects (answers : List Answer) (m : RouteMap) : RouteMap := answers.foldl (fun m a => a.effect m) m

theorem effects_append (l l' : List Answer) (m : RouteMap) : effects (l ++ l') m = effects l' (effects l m) :=
  List.foldl_append

theorem effects_cons (a : Answer) (l : List Answer) (m : RouteMap) : effects (a :: l) m = effects l (a.effect m) := rfl

theorem effect_comm {a b : Answer} (h : a.conflicts b = false) (m : RouteMap) :
    a.effect (b.effect m) = b.effect (a.effect m) := by
  obtain ⟨op, a⟩ := a
  obtain ⟨op', b⟩ := b
  rcases a with t | response
  · rfl
  rcases b with t | response'
  · rfl
  rcases response with rs | r
  · cases h
  rcases response' with rs | r'
  · cases h
  have hne : r.id ≠ r'.id := by simpa [conflicts] using h
  show Function.update (Function.update m r'.id (some r'.sanitized)) r.id (some r.sanitized) =
    Function.update (Function.update m r.id (some r.sanitized)) r'.id (some r'.sanitized)
  exact Function.update_comm hne.symm _ _ m

/-- An answer may be moved before those it does not conflict with. -/
theorem effects_move {x : Answer} {before : List Answer} (h : ∀ y ∈ before, y.conflicts x = false) (m : RouteMap) :
    effects before (x.effect m) = x.effect (effects before m) := by
  induction before generalizing m with
  | nil => rfl
  | cons y before ih =>
    rw [effects_cons, effects_cons, effect_comm (h y (by simp)), ih fun z hz => h z (by simp [hz])]

end Answer

/-- The gateway, the projection, the requests that were not executed and the answers that did not arrive; the answers
stand in the order of their execution. -/
structure Overlap (σ : Type) where
  gateway : σ
  projection : Projection
  requests : List Operation := []
  answers : List Answer := []
deriving DecidableEq

inductive Event where
  /-- An operation is called. -/
  | request (op : Operation)
  /-- The gateway executes request number `i`. -/
  | execute (i : Nat) (env : Ambient)
  /-- Answer number `i` arrives. -/
  | deliver (i : Nat)
deriving DecidableEq

namespace Overlap

variable {σ : Type} (G : Gateway σ)

def step (s : Overlap σ) : Event → Option (Overlap σ)
  | .request op => some { s with projection := s.projection.requested, requests := s.requests ++ [op] }
  | .execute i env => s.requests[i]?.map fun op =>
    let answer := G.execute s.gateway env op.command
    { s with gateway := answer.2, requests := s.requests.eraseIdx i, answers := s.answers ++ [(op, answer.1)] }
  | .deliver i => s.answers[i]?.map fun a =>
    { s with projection := s.projection.answered a.1 a.2, answers := s.answers.eraseIdx i }

def run (s : Overlap σ) : List Event → Option (Overlap σ)
  | [] => some s
  | e :: events => (step G s e).bind fun s' => run s' events

/-- Every operation was answered. -/
def Completed (s : Overlap σ) : Prop := s.requests = [] ∧ s.answers = []

/-- The projected routes are the routes of the gateway. -/
def Shown (s : Overlap σ) : Prop :=
  Keyed.Distinct Route.id s.projection.routes ∧
  ∀ id, (Keyed.view Route.id s.projection.routes id).map Route.toJs =
    (Keyed.view Route.id (G.routes s.gateway) id).map fun r => sanitizeForJson r.toJs

/-- The ids of the gateway stay as they are when they are shown, and a response does not overtake one it conflicts
with. -/
def InOrder (s : Overlap σ) : Event → Prop
  | .request _ => True
  | .execute i env => ∀ op, s.requests[i]? = some op → KeepsIds (G.routes (G.execute s.gateway env op.command).2)
  | .deliver i => ∀ x, s.answers[i]? = some x → ∀ y ∈ s.answers.take i, y.conflicts x = false

/-- `InOrder` at every step. -/
def Orderly (s : Overlap σ) : List Event → Prop
  | [] => True
  | e :: events => InOrder G s e ∧ ∀ s', step G s e = some s' → Orderly s' events

/-- The gateway lists its routes for an operation. -/
def ListsAt (s : Overlap σ) (e : Event) : Prop :=
  ∃ i env response, e = .execute i env ∧ s.requests[i]? = some (.load true) ∧
    (G.execute s.gateway env (.list true)).1 = .ok response

/-- It does so in the course of a run. -/
def Lists (s : Overlap σ) : List Event → Prop
  | [] => False
  | e :: events => ListsAt G s e ∨ ∃ s', step G s e = some s' ∧ Lists s' events

/-! ### The invariant -/

structure Inv (Valid : σ → Prop) (s : Overlap σ) : Prop where
  valid : Valid s.gateway
  loads : .load false ∉ s.requests
  proper : ∀ a ∈ s.answers, a.Proper
  distinct : Keyed.Distinct Route.id s.projection.routes

/-- The answers on their way complete the projection. -/
def Agrees (s : Overlap σ) : Prop :=
  Answer.effects s.answers (Keyed.view Route.id s.projection.routes) = sanitizedMap (G.map s.gateway)

variable {G} {Valid : σ → Prop} {s s' : Overlap σ} {e : Event}

theorem view_answered (p : Projection) {a : Answer} (h : a.Proper) :
    Keyed.view Route.id (p.answered a.1 a.2).routes = a.effect (Keyed.view Route.id p.routes) := by
  obtain ⟨op, answer⟩ := a
  rcases answer with t | response
  · rw [Projection.answered_error_routes]
    rfl
  · rw [Projection.answered_ok_routes, Projection.view_shown p (h response rfl)]
    rfl

theorem distinct_answered {p : Projection} {a : Answer} (hp : Keyed.Distinct Route.id p.routes) (h : a.Proper) :
    Keyed.Distinct Route.id (p.answered a.1 a.2).routes := by
  obtain ⟨op, answer⟩ := a
  rcases answer with t | response
  · rw [Projection.answered_error_routes]
    exact hp
  · exact Projection.distinct_shown hp (h response rfl)

/-- What a step can do. -/
theorem step_cases (h : step G s e = some s') :
    (∃ op, e = .request op ∧
      s' = { s with projection := s.projection.requested, requests := s.requests ++ [op] }) ∨
    (∃ i env op, e = .execute i env ∧ s.requests[i]? = some op ∧
      s' = { s with gateway := (G.execute s.gateway env op.command).2, requests := s.requests.eraseIdx i,
                    answers := s.answers ++ [(op, (G.execute s.gateway env op.command).1)] }) ∨
    (∃ i a, e = .deliver i ∧ s.answers[i]? = some a ∧
      s' = { s with projection := s.projection.answered a.1 a.2, answers := s.answers.eraseIdx i }) := by
  cases e with
  | request op => exact .inl ⟨op, rfl, (Option.some.inj h).symm⟩
  | execute i env =>
    obtain ⟨op, hop, rfl⟩ := Option.map_eq_some_iff.1 h
    exact .inr (.inl ⟨i, env, op, rfl, hop, rfl⟩)
  | deliver i =>
    obtain ⟨a, ha, rfl⟩ := Option.map_eq_some_iff.1 h
    exact .inr (.inr ⟨i, a, rfl, ha, rfl⟩)

theorem proper_executed (hG : G.Atomic Valid) (hi : Inv Valid s) {i : Nat} {env : Ambient} {op : Operation}
    (hop : s.requests[i]? = some op) (hids : KeepsIds (G.routes (G.execute s.gateway env op.command).2)) :
    Answer.Proper (op, (G.execute s.gateway env op.command).1) := by
  intro response hr
  have hne : op ≠ .load false := fun hc => hi.loads (hc ▸ List.mem_of_getElem? hop)
  exact hG.proper hi.valid hne hr hids

theorem Inv.step (hG : G.Atomic Valid) (hi : Inv Valid s) (hload : e ≠ .request (.load false)) (ho : InOrder G s e)
    (h : step G s e = some s') : Inv Valid s' := by
  rcases step_cases h with ⟨op, rfl, rfl⟩ | ⟨i, env, op, rfl, hop, rfl⟩ | ⟨i, a, rfl, ha, rfl⟩
  · refine ⟨hi.valid, ?_, hi.proper, hi.distinct⟩
    intro hm
    rcases List.mem_append.1 hm with hm | hm
    · exact hi.loads hm
    · exact hload (by rw [List.mem_singleton.1 hm])
  · refine ⟨hG.valid hi.valid, fun hm => hi.loads (List.eraseIdx_subset hm), ?_, hi.distinct⟩
    intro a ha
    rcases List.mem_append.1 ha with ha | ha
    · exact hi.proper a ha
    · cases List.mem_singleton.1 ha
      exact proper_executed hG hi hop (ho op hop)
  · refine ⟨hi.valid, hi.loads, fun b hb => hi.proper b (List.eraseIdx_subset hb), ?_⟩
    exact distinct_answered hi.distinct (hi.proper a (List.mem_of_getElem? ha))

theorem effect_executed (hG : G.Atomic Valid) (hi : Inv Valid s) {i : Nat} (env : Ambient) {op : Operation}
    (hop : s.requests[i]? = some op) :
    Answer.effect (op, (G.execute s.gateway env op.command).1) (sanitizedMap (G.map s.gateway)) =
      sanitizedMap (G.map (G.execute s.gateway env op.command).2) := by
  have hne : op ≠ .load false := fun hc => hi.loads (hc ▸ List.mem_of_getElem? hop)
  rcases hr : (G.execute s.gateway env op.command).1 with t | response
  · show sanitizedMap (G.map s.gateway) = _
    rw [Gateway.map, Gateway.map, hG.fails hr]
  · exact (hG.effect hi.valid hne hr).symm

theorem Agrees.step (hG : G.Atomic Valid) (hi : Inv Valid s) (ho : InOrder G s e) (ha : Agrees G s)
    (h : step G s e = some s') : Agrees G s' := by
  rcases step_cases h with ⟨op, rfl, rfl⟩ | ⟨i, env, op, rfl, hop, rfl⟩ | ⟨i, a, rfl, hget, rfl⟩
  · exact ha
  · rw [Agrees, Answer.effects_append, ha]
    exact effect_executed hG hi _ hop
  · have hlt : i < s.answers.length := (List.getElem?_eq_some_iff.1 hget).1
    have hsplit : s.answers = s.answers.take i ++ a :: s.answers.drop (i + 1) := by
      rw [List.getElem?_eq_some_iff.1 hget |>.2 |>.symm, List.cons_getElem_drop_succ, List.take_append_drop]
    rw [Agrees]
    show Answer.effects (s.answers.eraseIdx i) (Keyed.view Route.id (s.projection.answered a.1 a.2).routes) = _
    rw [List.eraseIdx_eq_take_drop_succ, view_answered _ (hi.proper a (List.mem_of_getElem? hget)),
      Answer.effects_append, Answer.effects_move (ho a hget), ← Answer.effects_cons, ← Answer.effects_append, ← hsplit]
    exact ha

/-- A listing makes up for whatever was shown before. -/
theorem agrees_of_listsAt (hG : G.Atomic Valid) (hi : Inv Valid s) (hl : ListsAt G s e) (h : step G s e = some s') :
    Agrees G s' := by
  obtain ⟨i, env, response, rfl, hop, hr⟩ := hl
  rcases step_cases h with ⟨op, he, -⟩ | ⟨i', env', op, he, hop', rfl⟩ | ⟨i', a, he, -, -⟩
  · cases he
  · cases he
    rw [hop] at hop'
    cases hop'
    have heffect := effect_executed hG hi env hop
    obtain ⟨rfl, -⟩ := hG.lists hi.valid hr
    rw [Agrees, Answer.effects_append]
    show Answer.effect (.load true, (G.execute s.gateway env (.list true)).1) _ = _
    rw [← heffect]
    show Answer.effect (.load true, (G.execute s.gateway env (.list true)).1) _ =
      Answer.effect (.load true, (G.execute s.gateway env (.list true)).1) _
    rw [hr]
    rfl
  · cases he

theorem inv_run (hG : G.Atomic Valid) {events : List Event} (hi : Inv Valid s)
    (hloads : .request (.load false) ∉ events) (ho : Orderly G s events) (ha : Agrees G s ∨ Lists G s events)
    (h : run G s events = some s') : Inv Valid s' ∧ Agrees G s' := by
  induction events generalizing s with
  | nil =>
    cases h
    exact ⟨hi, ha.resolve_right id⟩
  | cons e events ih =>
    obtain ⟨s₁, hs₁, hrun⟩ := Option.bind_eq_some_iff.1 h
    have hi₁ := hi.step hG (fun hc => hloads (by simp [hc])) ho.1 hs₁
    refine ih hi₁ (fun hc => hloads (by simp [hc])) (ho.2 s₁ hs₁) ?_ hrun
    rcases ha with ha | hl | ⟨s₂, hs₂, hl⟩
    · exact .inl (ha.step hG hi ho.1 hs₁)
    · exact .inl (agrees_of_listsAt hG hi hl hs₁)
    · rw [hs₁] at hs₂
      cases hs₂
      exact .inr hl

theorem shown_of_agrees (hi : Inv Valid s) (ha : Agrees G s) (hc : s.Completed) : Shown G s := by
  refine ⟨hi.distinct, fun id => ?_⟩
  have hview : Keyed.view Route.id s.projection.routes = sanitizedMap (G.map s.gateway) := by
    rw [Agrees, hc.2] at ha
    exact ha
  rw [hview, sanitizedMap, Option.map_map]
  exact congrArg (fun f => Option.map f _) (funext fun r => (Route.sanitizeForJson_toJs r).symm)

/-- When no response overtakes one that it conflicts with, and the projection showed the routes at first or a load was
executed, the projection shows the routes of the gateway whenever no operation is under way. -/
theorem shown_of_orderly {σ : Type} {G : Gateway σ} {Valid : σ → Prop} (hG : G.Atomic Valid) {g : σ} {p : Projection}
    (hg : Valid g) (hp : Keyed.Distinct Route.id p.routes) {events : List Event}
    (hloads : .request (.load false) ∉ events) (ho : Orderly G ⟨g, p, [], []⟩ events)
    (hstart : Keyed.view Route.id p.routes = sanitizedMap (G.map g) ∨ Lists G ⟨g, p, [], []⟩ events) {s : Overlap σ}
    (h : run G ⟨g, p, [], []⟩ events = some s) (hc : s.Completed) : Shown G s := by
  have hi : Inv Valid (⟨g, p, [], []⟩ : Overlap σ) := ⟨hg, by simp, by simp, hp⟩
  obtain ⟨hi', ha⟩ := inv_run hG hi hloads ho hstart h
  exact shown_of_agrees hi' ha hc

/-- Two saves of different routes, answered in the other order. -/
theorem shown_of_orderly_two :
    ∃ s, run MockExecutor.gateway ⟨{}, {}, [], []⟩
      [.request (.save ⟨some "a", "h", "d", none⟩), .request (.save ⟨some "b", "h", "d", none⟩),
        .execute 0 ⟨"u", "t"⟩, .execute 0 ⟨"u", "t"⟩, .deliver 1, .deliver 0] = some s ∧
      Shown MockExecutor.gateway s := by
  have hevents : Orderly MockExecutor.gateway ⟨{}, {}, [], []⟩
      [.request (.save ⟨some "a", "h", "d", none⟩), .request (.save ⟨some "b", "h", "d", none⟩),
        .execute 0 ⟨"u", "t"⟩, .execute 0 ⟨"u", "t"⟩, .deliver 1, .deliver 0] := by
    have ha : redactPotentialSecrets "a" = "a" := by decide +kernel
    have hb : redactPotentialSecrets "b" = "b" := by decide +kernel
    simp [Orderly, InOrder, step, MockExecutor.gateway, MockExecutor.execute, MockExecutor.saved, KeepsIds,
      Operation.command, Answer.conflicts, ha, hb]
  obtain ⟨s, hs, hc⟩ : ∃ s, run MockExecutor.gateway ⟨{}, {}, [], []⟩
      [.request (.save ⟨some "a", "h", "d", none⟩), .request (.save ⟨some "b", "h", "d", none⟩),
        .execute 0 ⟨"u", "t"⟩, .execute 0 ⟨"u", "t"⟩, .deliver 1, .deliver 0] = some s ∧ s.Completed :=
    ⟨_, rfl, rfl, rfl⟩
  exact ⟨s, hs, shown_of_orderly MockExecutor.atomic (g := {}) (p := {}) List.nodup_nil List.nodup_nil (by decide)
    hevents (.inl rfl) hs hc⟩

/-- Two saves of one route: the first response arrives last, and the projection keeps showing the first draft. -/
theorem overtaken_not_shown :
    ∃ s, run MockExecutor.gateway ⟨{}, {}, [], []⟩
      [.request (.save ⟨some "a", "h", "d", none⟩), .request (.save ⟨some "a", "i", "d", none⟩),
        .execute 0 ⟨"u", "t"⟩, .execute 0 ⟨"u", "t"⟩, .deliver 1, .deliver 0] = some s ∧
      s.Completed ∧ ¬ Shown MockExecutor.gateway s := by
  refine ⟨_, rfl, ⟨rfl, rfl⟩, ?_⟩
  rintro ⟨-, hview⟩
  exact absurd (hview "a") (by decide +kernel)

end Overlap

end NginxAdmin.Web
