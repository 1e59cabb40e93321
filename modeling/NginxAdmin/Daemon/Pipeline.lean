import NginxAdmin.Daemon.ApplyInv

/-!
# The pipeline under the apply lock

`triple_pipeline` follows a call of the pipeline through its stages: what is in the staging, runtime and
`.previous` directories, and what the history says of it. All of it holds among other threads, since they
leave the directories to the holder of the apply lock.
-/

namespace NginxAdmin.Daemon

open Protocol

def applyProtocol (cfg : DaemonConfig) (gated closed : Prop) (w₀ : World) : Protocol Moment where
  rely := ApplyRely
  inv := ApplyInv cfg gated closed w₀
  refl := ApplyRely.refl
  trans := ApplyRely.trans

/-- The data of a call: its thread, the state it applies, and what the directories and the status were when it
began. -/
structure Call where
  t : Nat
  x : ControlPlaneState
  dirs : Location → Option Dir
  observed : UInt64
  hash : Option String

/-- The call `k` has the apply lock, and the status does not say `InSync`. -/
structure Working (cfg : DaemonConfig) (gated : Prop) (w₀ : World) (k : Call) (s : Moment) : Prop where
  lock : s.now.applyLock = some k.t
  began : gated → Began cfg s.log k.t (k.dirs cfg.runtime)
  state : gated → Committed w₀ s.log k.x
  observed : s.now.status.observedRevision = k.observed
  hash : s.now.status.activeConfigHash = k.hash
  sync : s.now.status.syncState ≠ .inSync

/-- The entries that a call renders over: those of the old staging directory if it was denied to the call. -/
def leftover (cfg : DaemonConfig) (dirs : Location → Option Dir) (denied : List Location) : Dir :=
  if cfg.staging ∈ denied then (dirs cfg.staging).getD [] else []

/-- `T` is what the call has rendered. -/
structure Renders (cfg : DaemonConfig) (k : Call) (log : Log) (T : Dir) : Prop where
  onto : renderOnto k.x (leftover cfg k.dirs (denials log k.t)) = some T
  hashed : Hashed cfg log T

/-- From `s` to `s'` nothing has happened that concerns the call of thread `t`. -/
structure Beside (cfg : DaemonConfig) (t : Nat) (s s' : Moment) : Prop where
  log : s.log <:+ s'.log
  moves : moves s'.log t = moves s.log t
  denied : cfg.staging ∈ denials s'.log t ↔ cfg.staging ∈ denials s.log t
  dirs : s'.now.disk.dirs = s.now.disk.dirs

def Op.IsRename : Op → Prop
  | rename .. => True
  | _ => False

theorem Op.IsRename.onPipeline {o : Op} (h : o.IsRename) : o.OnPipeline := by
  cases o <;> first | exact trivial | exact h.elim

section Steps

variable {cfg : DaemonConfig} {gated closed : Prop} {w₀ : World} {ok : Choice → Prop} {k : Call} {t : Nat}
  {s s' : Moment}

theorem Began.append {log l : Log} {R : Option Dir} (h : Began cfg log t R)
    (hl : ∀ e ∈ l, onPipeline e → e.tid = t) : Began cfg (l ++ log) t R := by
  obtain ⟨since, before, pre, post, rfl, hR, hs⟩ := h
  refine ⟨l ++ since, before, pre, post, by rw [List.append_assoc], hR, fun e he => ?_⟩
  exact (List.mem_append.1 he).elim (hl e) (hs e)

theorem ApplyRely.suffix (h : ApplyRely t s s') : s.log <:+ s'.log := by
  obtain ⟨l, hl, -⟩ := h.log
  exact ⟨l, hl.symm⟩

theorem ApplyRely.beside (h : ApplyRely t s s') (hlock : s.now.applyLock = some t) : Beside cfg t s s' := by
  obtain ⟨l, hl, ht, -⟩ := h.log
  exact ⟨h.suffix, by rw [hl, moves_append ht], by rw [hl, denials_append ht], (h.held hlock).1⟩

theorem stable_working : (applyProtocol cfg gated closed w₀).Stable k.t (Working cfg gated w₀ k) := by
  intro s s' h hr
  obtain ⟨-, ho, hh, hs⟩ := hr.held h.lock
  obtain ⟨l, hl, -, hp⟩ := hr.log
  refine ⟨hr.applyLock.2 h.lock, fun hg => ?_, fun hg => (h.state hg).mono hr.suffix, ho.trans h.observed,
    hh.trans h.hash, fun hin => h.sync (hs hin)⟩
  rw [hl]
  exact (h.began hg).append fun e he hp' => absurd hp' (hp h.lock e he)

/-- `A` is about a call that works, and survives what does not concern it. -/
structure Steady (cfg : DaemonConfig) (gated : Prop) (w₀ : World) (k : Call) (A : Moment → Prop) : Prop where
  working : ∀ s, A s → Working cfg gated w₀ k s
  beside : ∀ s s', A s → Working cfg gated w₀ k s' → Beside cfg k.t s s' → A s'

theorem Steady.stable {A : Moment → Prop} (h : Steady cfg gated w₀ k A) :
    (applyProtocol cfg gated closed w₀).Stable k.t A := fun s s' hs hr =>
  h.beside s s' hs (stable_working s s' (h.working s hs) hr) (hr.beside (h.working s hs).lock)

theorem Steady.and_dir {A : Moment → Prop} (h : Steady cfg gated w₀ k A) (l : Location) (d : Option Dir) :
    Steady cfg gated w₀ k fun s => A s ∧ s.now.disk.dirs l = d where
  working s hs := h.working s hs.1
  beside s s' hs hw hc := ⟨h.beside s s' hs.1 hw hc, by rw [hc.dirs]; exact hs.2⟩

theorem leftover_congr {A B : List Location} (h : cfg.staging ∈ A ↔ cfg.staging ∈ B) (dirs : Location → Option Dir) :
    leftover cfg dirs A = leftover cfg dirs B := by
  simp only [leftover, h]

theorem Renders.beside {T : Dir} (h : Renders cfg k s.log T) (hc : Beside cfg k.t s s') : Renders cfg k s'.log T :=
  ⟨by rw [leftover_congr hc.denied]; exact h.onto, h.hashed.mono hc.log⟩

/-- It is the render of the state, if the staging directory was not denied. -/
theorem Renders.eq_or {log : Log} {T : Dir} (h : Renders cfg k log T) :
    T = renderTree k.x ∨ cfg.staging ∈ denials log k.t := by
  by_cases hd : cfg.staging ∈ denials log k.t
  · exact .inr hd
  · have honto := h.onto
    rw [leftover, if_neg hd, renderOnto_nil, Option.some.injEq] at honto
    exact .inl honto.symm

/-- What is to be checked of one operation. A drop is always harmless: it releases the lock and leaves the
directories and the status as they are. -/
theorem apply_performs {o : Op} {A : Moment → Prop} {Q : o.Res → Moment → Prop}
    (hstep : ∀ s r s' c, A s → ApplyInv cfg gated closed w₀ s → ok c → o.exec t c s.now = some (r, s'.now) →
      s'.log = .did t o r s.now s'.now :: s.log →
      (o.OnPipeline → s.now.applyLock = some t) ∧ ApplyOwed t s.now s'.now ∧ ApplyInv cfg gated closed w₀ s' ∧
        Q r s') :
    (applyProtocol cfg gated closed w₀).Performs (machine.machineOn ok) t A o Q := by
  intro s hA hinv
  constructor
  · intro r s' hs
    obtain ⟨⟨c, hc, hexec⟩, hlog⟩ := Exec.traced_step.1 hs
    obtain ⟨hp, howed, hinv', hQ⟩ := hstep s r s' c hA hinv hc hexec hlog
    exact ⟨⟨hinv', fun u hu => howed.rely hlog rfl hp hu⟩, hQ⟩
  · intro s' hs
    obtain ⟨hcancel, hlog⟩ := Exec.traced_cancel.1 hs
    replace hcancel : o.cancel t s.now = some s'.now := hcancel
    obtain ⟨hl, ha, hstate⟩ : LockStep t s.now.applyLock s'.now.applyLock ∧ Aside s.now s'.now ∧
        s'.now.state = s.now.state := by
      rcases cancel_cases hcancel with h | ⟨jobs, -, h⟩ <;> rw [h] <;>
        exact ⟨release_applyLock s.now t, ⟨rfl, rfl, rfl, id⟩, rfl⟩
    exact ⟨hinv.aside hlog rfl rfl id ha (hinv.stored_of_same hlog hstate),
      fun u hu => (ha.owed hl).rely hlog rfl False.elim hu⟩

theorem Op.IsAside.not_onPipeline {o : Op} (ho : o.IsAside) : ¬ o.OnPipeline := by
  cases o <;> first | exact ho.elim | exact id

theorem performs_aside {o : Op} (ho : o.IsAside) {A : Moment → Prop} {Q : o.Res → Moment → Prop}
    (hQ : ∀ s r s' c, A s → ApplyInv cfg gated closed w₀ s → ok c → o.exec t c s.now = some (r, s'.now) →
      s'.log = .did t o r s.now s'.now :: s.log → Aside s.now s'.now →
      s'.now.applyLock = s.now.applyLock → Q r s') :
    (applyProtocol cfg gated closed w₀).Performs (machine.machineOn ok) t A o Q := by
  refine apply_performs fun s r s' c hA hinv hc hexec hlog => ?_
  obtain ⟨ha, hl⟩ := aside_of_exec ho hexec
  refine ⟨fun hp => absurd hp ho.not_onPipeline, ha.owed (.inl hl), ?_, hQ s r s' c hA hinv hc hexec hlog ha hl⟩
  refine hinv.aside hlog rfl rfl ho.not_onPipeline ha ?_
  rcases state_of_exec hexec with hs | rfl
  · exact hinv.stored_of_same hlog hs
  · exact fun _ => .inr ⟨t, mem_commits.2 ⟨r, s.now, s'.now, hlog ▸ List.mem_cons_self⟩⟩

theorem Working.step {o : Op} {c : Choice} {r : o.Res} (h : Working cfg gated w₀ k s) (ho : o.OnDirs)
    (hexec : o.exec k.t c s.now = some (r, s'.now)) (hlog : s'.log = .did k.t o r s.now s'.now :: s.log) :
    Working cfg gated w₀ k s' := by
  obtain ⟨hq, hl⟩ := quiet_of_onDirs ho hexec
  refine ⟨by rw [hl]; exact h.lock, fun hg => ?_, fun hg => (h.state hg).mono (suffix_of_cons hlog),
    by rw [hq.status]; exact h.observed, by rw [hq.status]; exact h.hash, by rw [hq.status]; exact h.sync⟩
  rw [hlog]
  refine (h.began hg).append (l := [_]) fun e he _ => ?_
  rw [List.mem_singleton.1 he]; rfl

/-- The trees that the call may make appear at the runtime directory. -/
def MayAppear (cfg : DaemonConfig) (k : Call) (log : Log) (T : Dir) : Prop :=
  k.dirs cfg.runtime = some T ∨ cfg.previous ∈ denials log k.t ∨
    (cfg.dryRun = false → Tested cfg log k.t T) ∧ BackedUp log k.t ∧
      (T = renderTree k.x ∨ cfg.staging ∈ denials log k.t)

/-- Operations of the pipeline. -/
theorem performs_pipeline {o : Op} (ho : o.OnPipeline) {A : Moment → Prop} {Q : o.Res → Moment → Prop}
    (hA : ∀ s, A s → Working cfg gated w₀ k s)
    (hstep : ∀ s r s' c, A s → ok c → o.exec k.t c s.now = some (r, s'.now) →
      s'.log = .did k.t o r s.now s'.now :: s.log → Working cfg gated w₀ k s' →
      (∀ T, s'.now.disk.dirs cfg.runtime = some T → s.now.disk.dirs cfg.runtime = some T ∨
        MayAppear cfg k s.log T) ∧ Q r s') :
    (applyProtocol cfg gated closed w₀).Performs (machine.machineOn ok) k.t A o Q := by
  refine apply_performs fun s r s' c hs hinv hc hexec hlog => ?_
  have hw := hA s hs
  have hw' := hw.step ho.onDirs hexec hlog
  obtain ⟨hq, hl⟩ := quiet_of_onDirs ho.onDirs hexec
  obtain ⟨happ, hQ⟩ := hstep s r s' c hs hc hexec hlog hw'
  -- the pipeline does not write the status
  have hobserved : s'.now.status.observedRevision = s.now.status.observedRevision := by rw [hq.status]
  have hhash : s'.now.status.activeConfigHash = s.now.status.activeConfigHash := by rw [hq.status]
  refine ⟨fun _ => hw.lock, ⟨.inl hl, fun u hu hlock => ?_⟩, ?_, hQ⟩
  · exact absurd (Option.some.inj (hlock.symm.trans hw.lock)) hu
  · refine hinv.step hlog (fun hg => ⟨fun _ T hT hne => ?_, fun _ => ⟨hw.lock, _, hw.began hg⟩, fun h => ?_⟩)
      (hinv.stored_of_same hlog hq.state) hobserved hhash fun _ hin => absurd hin hw'.sync
    · rcases (happ T hT).resolve_left hne with hR | hdenied | ⟨ht, hb, hx⟩
      · exact .inl (hR ▸ hw.began hg)
      · exact .inr (.inl hdenied)
      · exact .inr (.inr ⟨ht, hb, k.x, hw.state hg, hx⟩)
    · rcases h with h | h
      · exact absurd hobserved h
      · exact absurd hhash h

theorem moves_cons {o : Op} {r : o.Res} {w w' : World} (hlog : s'.log = .did t o r w w' :: s.log)
    (ho : ¬ o.IsRename) : moves s'.log t = moves s.log t := by
  rw [hlog, moves, List.filterMap_cons_none]
  · rfl
  · cases o <;> first | rfl | exact absurd trivial ho

theorem moves_failed {src dst : Location} {e : String} {w w' : World}
    (hlog : s'.log = .did t (.rename src dst) (.error e) w w' :: s.log) : moves s'.log t = moves s.log t := by
  rw [hlog, moves, List.filterMap_cons_none]
  · rfl
  · rfl

theorem moves_done {src dst : Location} {w w' : World}
    (hlog : s'.log = .did t (.rename src dst) (.ok ()) w w' :: s.log) :
    moves s'.log t = (src, dst) :: moves s.log t := by
  rw [hlog, moves, List.filterMap_cons_some (b := (src, dst))]
  · rfl
  · exact if_pos rfl

/-- The test of `l`. -/
theorem denials_exists {l : Location} {r : Bool} {w w' : World}
    (hlog : s'.log = .did t (.exists l) r w w' :: s.log) :
    denials s'.log t = if r = false ∧ (w.disk.dirs l).isSome then l :: denials s.log t else denials s.log t := by
  rw [hlog, denials, List.filterMap_cons]
  cases r with
  | true => rfl
  | false =>
    cases hd : w.disk.dirs l with
    | none => simp [denialOf, hd, denials]
    | some tree => simp [denialOf, hd, denials]

theorem staging_denied {o : Op} {r : o.Res} {w w' : World} (hlog : s'.log = .did t o r w w' :: s.log)
    (ho : o ≠ .exists cfg.staging) : cfg.staging ∈ denials s'.log t ↔ cfg.staging ∈ denials s.log t := by
  cases o <;> first | rw [hlog]; rfl | skip
  case «exists» l =>
    have hne : cfg.staging ≠ l := fun h => ho (h ▸ rfl)
    rw [denials_exists hlog]
    split
    · rw [List.mem_cons, or_iff_right hne]
    · rfl

theorem Renders.step {o : Op} {r : o.Res} {w w' : World} {T : Dir} (h : Renders cfg k s.log T)
    (hlog : s'.log = .did k.t o r w w' :: s.log) (ho : o ≠ .exists cfg.staging) : Renders cfg k s'.log T :=
  ⟨by rw [leftover_congr (staging_denied hlog ho)]; exact h.onto, h.hashed.mono (suffix_of_cons hlog)⟩

/-- A step of the call that leaves all directories alone. -/
theorem Beside.of_step {o : Op} {r : o.Res} (hlog : s'.log = .did t o r s.now s'.now :: s.log) (hne : ¬ o.IsRename)
    (ho : o ≠ .exists cfg.staging) (hd : s'.now.disk.dirs = s.now.disk.dirs) : Beside cfg t s s' :=
  ⟨suffix_of_cons hlog, moves_cons hlog hne, staging_denied hlog ho, hd⟩

end Steps

section Stages

variable {cfg : DaemonConfig} {gated closed : Prop} {w₀ : World} {ok : Choice → Prop} {k : Call}

/-! ### Rendering -/

/-- Nothing has been moved yet, and the runtime directory is as it was. -/
structure Before (cfg : DaemonConfig) (gated : Prop) (w₀ : World) (k : Call) (s : Moment) : Prop where
  working : Working cfg gated w₀ k s
  unmoved : moves s.log k.t = []
  runtime : s.now.disk.dirs cfg.runtime = k.dirs cfg.runtime

theorem steady_before : Steady cfg gated w₀ k (Before cfg gated w₀ k) where
  working _ h := h.working
  beside _ _ h hw hc := ⟨hw, hc.moves.trans h.unmoved, by rw [hc.dirs]; exact h.runtime⟩

theorem Before.step {s s' : Moment} {o : Op} {c : Choice} {r : o.Res} (h : Before cfg gated w₀ k s)
    (ho : o.OnDirs) (hne : ¬ o.IsRename) (hexec : o.exec k.t c s.now = some (r, s'.now))
    (hlog : s'.log = .did k.t o r s.now s'.now :: s.log)
    (hd : s'.now.disk.dirs cfg.runtime = s.now.disk.dirs cfg.runtime) : Before cfg gated w₀ k s' :=
  ⟨h.working.step ho hexec hlog, (moves_cons hlog hne).trans h.unmoved, hd.trans h.runtime⟩

theorem performs_before {o : Op} (ho : o.OnPipeline) (hne : ¬ o.IsRename) {A : Moment → Prop}
    {Q : o.Res → Moment → Prop} (hA : ∀ s, A s → Before cfg gated w₀ k s)
    (hd : ∀ (s : Moment) r (s' : Moment) c, o.exec k.t c s.now = some (r, s'.now) →
      s'.now.disk.dirs cfg.runtime = s.now.disk.dirs cfg.runtime)
    (hQ : ∀ s r s' c, A s → ok c → o.exec k.t c s.now = some (r, s'.now) →
      s'.log = .did k.t o r s.now s'.now :: s.log → Before cfg gated w₀ k s' → Q r s') :
    (applyProtocol cfg gated closed w₀).Performs (machine.machineOn ok) k.t A o Q := by
  refine performs_pipeline ho (fun s hs => (hA s hs).working) fun s r s' c hs hc hexec hlog _ => ?_
  have hd' := hd s r s' c hexec
  have hb := (hA s hs).step ho.onDirs hne hexec hlog hd'
  exact ⟨fun T hT => .inl (hd' ▸ hT), hQ s r s' c hs hc hexec hlog hb⟩

/-- The call renders; the staging directory has been denied to it exactly when `denied` holds. -/
structure Rendering (cfg : DaemonConfig) (gated : Prop) (w₀ : World) (k : Call) (denied : Prop) (s : Moment) :
    Prop where
  before : Before cfg gated w₀ k s
  previous : s.now.disk.dirs cfg.previous = k.dirs cfg.previous
  staging : cfg.staging ∈ denials s.log k.t ↔ denied

theorem steady_rendering {denied : Prop} : Steady cfg gated w₀ k (Rendering cfg gated w₀ k denied) where
  working _ h := h.before.working
  beside s s' h hw hc := ⟨steady_before.beside s s' h.before hw hc, by rw [hc.dirs]; exact h.previous,
    hc.denied.trans h.staging⟩

theorem Op.OnStaging.ne_exists {o : Op} (h : o.OnStaging cfg) (l : Location) : o ≠ .exists l := by
  rintro rfl
  exact h

theorem stagingFrame_rendering (hdirs : cfg.DirsApart) {denied : Prop} :
    StagingFrame cfg ok (applyProtocol cfg gated closed w₀) (machine.machineOn ok) k.t
      (Rendering cfg gated w₀ k denied) where
  grows _ _ hr := hr.suffix
  stable d := (steady_rendering.and_dir cfg.staging d).stable
  performs o ho d := by
    have change : o.OnPipeline → ¬ o.IsRename →
        (∀ (s : Moment) r (s' : Moment) c, o.exec k.t c s.now = some (r, s'.now) →
          ∀ l, l ≠ cfg.staging → s'.now.disk.dirs l = s.now.disk.dirs l) →
        (applyProtocol cfg gated closed w₀).Performs (machine.machineOn ok) k.t
          (Staged cfg (Rendering cfg gated w₀ k denied) d) o fun r s =>
            Rendering cfg gated w₀ k denied s ∧ Answers cfg ok k.t o d r (s.now.disk.dirs cfg.staging) s.log := by
      intro hp hr hframe
      refine performs_before hp hr (fun _ h => h.1.before)
        (fun s r s' c hexec => hframe s r s' c hexec _ (Ne.symm hdirs.staging_runtime.ne))
        fun s r s' c hs hc hexec hlog hb => ?_
      have hprev := hframe s r s' c hexec _ (Ne.symm hdirs.staging_previous.ne)
      exact ⟨⟨hb, hprev.trans hs.1.previous, (staging_denied hlog (ho.ne_exists _)).trans hs.1.staging⟩,
        c, s.now, s'.now, hc, hexec, hs.2, rfl, hlog ▸ List.mem_cons_self⟩
    have hno := ho.ne_exists cfg.staging
    cases o <;> first | exact ho.elim | skip
    case readTree l =>
      refine performs_aside (o := .readTree l) trivial fun s r s' c hs _ hc hexec hlog ha _ => ?_
      have hw := hs.1.before.working.step (o := .readTree l) trivial hexec hlog
      have hbeside : Beside cfg k.t s s' := .of_step (o := .readTree l) hlog id hno ha.dirs
      exact ⟨steady_rendering.beside s s' hs.1 hw hbeside,
        c, s.now, s'.now, hc, hexec, hs.2, rfl, hlog ▸ List.mem_cons_self⟩
    case createDirAll =>
      exact change trivial id fun _ _ _ _ h l hl => (exec_createDirAll h).1 l (ho ▸ hl)
    case removeDirAll =>
      exact change trivial id fun _ _ _ _ h l hl => (exec_removeDirAll h).1 l (ho ▸ hl)
    case writeFile =>
      exact change trivial id fun _ _ _ _ h l hl => (exec_writeFile h).1 l (ho ▸ hl)

theorem looks_rendering : Looks cfg ok (applyProtocol cfg gated closed w₀) (machine.machineOn ok) k.t
    (Rendering cfg gated w₀ k False) (Rendering cfg gated w₀ k True) := by
  intro d
  refine performs_aside (o := .exists cfg.staging) trivial fun s r s' c hs _ hc hexec hlog ha _ => ?_
  have hw := hs.1.before.working.step (o := .exists cfg.staging) trivial hexec hlog
  have hden := denials_exists hlog
  have rendering : ∀ {denied : Prop}, (cfg.staging ∈ denials s'.log k.t ↔ denied) →
      Staged cfg (Rendering cfg gated w₀ k denied) d s' := fun h => by
    refine ⟨⟨⟨hw, (moves_cons hlog id).trans hs.1.before.unmoved, ?_⟩, ?_, h⟩, ?_⟩ <;> rw [ha.dirs]
    · exact hs.1.before.runtime
    · exact hs.1.previous
    · exact hs.2
  obtain ⟨-, hr | ⟨rfl, hd, hf⟩⟩ := exec_exists hexec
  · refine .inl ⟨hr.trans (by rw [hs.2]), rendering ?_⟩
    have htrue : ¬ (r = false ∧ (s.now.disk.dirs cfg.staging).isSome) := fun h => by
      rw [← hr, h.1] at h
      cases h.2
    rw [hden, if_neg htrue]
    exact hs.1.staging
  · refine .inr ⟨rfl, hs.2 ▸ hd, ⟨c, hc, hf⟩, rendering ?_⟩
    rw [hden, if_pos ⟨rfl, Option.isSome_iff_ne_none.2 hd⟩]
    exact iff_of_true List.mem_cons_self trivial

/-- The rendered tree `T` is in the staging directory, and the history shows `ev`. -/
structure Prepared (cfg : DaemonConfig) (gated : Prop) (w₀ : World) (k : Call) (T : Dir) (ev : Log → Prop)
    (s : Moment) : Prop where
  before : Before cfg gated w₀ k s
  previous : s.now.disk.dirs cfg.previous = k.dirs cfg.previous
  staging : s.now.disk.dirs cfg.staging = some T
  renders : Renders cfg k s.log T
  ev : ev s.log

/-- Evidence that is not lost when the history grows. -/
def Grows (ev : Log → Prop) : Prop := ∀ l l', l <:+ l' → ev l → ev l'

theorem steady_prepared {T : Dir} {ev : Log → Prop} (hev : Grows ev) :
    Steady cfg gated w₀ k (Prepared cfg gated w₀ k T ev) where
  working _ h := h.before.working
  beside s s' h hw hc := ⟨steady_before.beside s s' h.before hw hc, by rw [hc.dirs]; exact h.previous,
    by rw [hc.dirs]; exact h.staging, h.renders.beside hc, hev _ _ hc.log h.ev⟩

/-- The tree `T` is in the runtime directory. -/
structure Live (cfg : DaemonConfig) (gated : Prop) (w₀ : World) (k : Call) (T : Dir) (s : Moment) : Prop where
  working : Working cfg gated w₀ k s
  switched : Switched cfg s.log k.t T
  renders : Renders cfg k s.log T
  runtime : s.now.disk.dirs cfg.runtime = some T

theorem steady_live {T : Dir} : Steady cfg gated w₀ k (Live cfg gated w₀ k T) where
  working _ h := h.working
  beside _ _ h hw hc := ⟨hw, h.switched.mono hc.log, h.renders.beside hc, by rw [hc.dirs]; exact h.runtime⟩

/-- What is in the runtime directory when a call fails without a switch, by what the call has moved. The directory
`previous` is moved in without having been moved out when its tests are wrong. -/
inductive Remains (cfg : DaemonConfig) (k : Call) : List (Location × Location) → Option Dir → Prop
  | kept : Remains cfg k [] (k.dirs cfg.runtime)
  | restored : Remains cfg k [(cfg.previous, cfg.runtime), (cfg.runtime, cfg.previous)] (k.dirs cfg.runtime)
  | lost (hR : k.dirs cfg.runtime ≠ none) : Remains cfg k [(cfg.runtime, cfg.previous)] none
  | revived : Remains cfg k [(cfg.previous, cfg.runtime)] (k.dirs cfg.previous)

/-- What a call that fails has made of the runtime directory. -/
inductive Failed (cfg : DaemonConfig) (gated : Prop) (w₀ : World) (k : Call) (s : Moment) : Prop
  | unswitched (hw : Working cfg gated w₀ k s) (h : Remains cfg k (moves s.log k.t) (s.now.disk.dirs cfg.runtime))
  | switched {T : Dir} (h : Live cfg gated w₀ k T s)

theorem steady_failed : Steady cfg gated w₀ k (Failed cfg gated w₀ k) where
  working _ h := by
    cases h with
    | unswitched hw => exact hw
    | switched h => exact h.working
  beside s s' h hw hc := by
    cases h with
    | unswitched _ h => exact .unswitched hw (by rw [hc.moves, hc.dirs]; exact h)
    | switched h => exact .switched (steady_live.beside s s' h hw hc)

theorem Before.failed {s : Moment} (h : Before cfg gated w₀ k s) : Failed cfg gated w₀ k s :=
  .unswitched h.working (by rw [h.unmoved, h.runtime]; exact .kept)

/-- The end of a stage: `B`, or a fault and the traces of a failed call. -/
def StagePost (cfg : DaemonConfig) (gated : Prop) (w₀ : World) (ok : Choice → Prop) (k : Call) {α : Type}
    (B : α → Moment → Prop) : Except DaemonError α → Moment → Prop
  | .ok a, s => B a s
  | .error _, s => Faulty ok ∧ Failed cfg gated w₀ k s

theorem stable_stage_error {α : Type} {B : α → Moment → Prop} (e : DaemonError) :
    (applyProtocol cfg gated closed w₀).Stable k.t (StagePost cfg gated w₀ ok k B (.error e)) :=
  fun s s' h hr => ⟨h.1, steady_failed.stable s s' h.2 hr⟩

theorem StagePost.bind {α β : Type} {A : Moment → Prop} {B : β → Moment → Prop} {C : α → Moment → Prop}
    {x : Fallible β} {f : β → Fallible α}
    (hx : (applyProtocol cfg gated closed w₀).Triple (machine.machineOn ok) k.t A x.run
      (StagePost cfg gated w₀ ok k B))
    (hf : ∀ b, (applyProtocol cfg gated closed w₀).Triple (machine.machineOn ok) k.t (B b) (f b).run
      (StagePost cfg gated w₀ ok k C)) :
    (applyProtocol cfg gated closed w₀).Triple (machine.machineOn ok) k.t A (x >>= f).run
      (StagePost cfg gated w₀ ok k C) :=
  Triple.tryBind hx hf stable_stage_error fun _ _ _ h => h

theorem exec_sh {t : Nat} {c : Choice} {w w' : World} {command : Command} {r : Except String ShellOutput}
    (h : (Op.sh command).exec t c w = some (r, w')) :
    w'.disk.dirs = w.disk.dirs ∧ (r = .ok .success ∨ c.fault ≠ none) := by
  simp only [Op.exec] at h
  split at h
  · cases h
    refine ⟨?_, .inl rfl⟩
    cases command <;> rfl
  · rename_i hf
    split at h <;> cases h
    · exact ⟨rfl, .inr (by rw [hf]; exact Option.some_ne_none _)⟩
    · refine ⟨?_, .inr (by rw [hf]; exact Option.some_ne_none _)⟩
      cases command <;> rfl

/-- A shell command, from `A` to `B`; the directories stay as they are. -/
theorem triple_runShell {command : Command} {A B : Moment → Prop} (hA : Steady cfg gated w₀ k A)
    (hB : Steady cfg gated w₀ k B) (hfailed : ∀ s, A s → Failed cfg gated w₀ k s)
    (hnew : ∀ s s' : Moment, A s → A s' →
      s'.log = .did k.t (.sh command) (.ok .success) s.now s'.now :: s.log → B s') :
    (applyProtocol cfg gated closed w₀).Triple (machine.machineOn ok) k.t A (runShell command).run
      (StagePost cfg gated w₀ ok k fun _ => B) := by
  let C : Except String ShellOutput → Moment → Prop := fun r s =>
    (r = .ok .success ∧ B s) ∨ r ≠ .ok .success ∧ Faulty ok ∧ A s
  have hC : ∀ r, (applyProtocol cfg gated closed w₀).Stable k.t (C r) := by
    intro r s s' h hr
    rcases h with ⟨hok, hs⟩ | ⟨hne, hf, hs⟩
    · exact .inl ⟨hok, hB.stable s s' hs hr⟩
    · exact .inr ⟨hne, hf, hA.stable s s' hs hr⟩
  refine triple_ask (o := .sh command) (B := C) hA.stable hC ?_ fun r => ?_
  · refine performs_pipeline (o := .sh command) trivial hA.working fun s r s' c hs hc hexec hlog hw => ?_
    obtain ⟨hd, hr⟩ := exec_sh hexec
    have hs' := hA.beside s s' hs hw (.of_step (o := .sh command) hlog id (fun h => by cases h) hd)
    refine ⟨fun T hT => .inl (by rw [← hd]; exact hT), ?_⟩
    by_cases hsucc : r = .ok .success
    · subst hsucc
      exact .inl ⟨rfl, hnew s s' hs hs' hlog⟩
    · exact .inr ⟨hsucc, ⟨c, hc, hr.resolve_left hsucc⟩, hs'⟩
  · refine Triple.pure (hC r) fun s _ h => ?_
    rcases h with ⟨rfl, h⟩ | ⟨hne, hf, hs⟩
    · exact h
    · have herr : ∃ e, shellResult command r = .error e := by
        rcases r with e | _ | stderr
        · exact ⟨_, rfl⟩
        · exact absurd rfl hne
        · exact ⟨_, rfl⟩
      obtain ⟨e, he⟩ := herr
      show StagePost cfg gated w₀ ok k (fun _ => B) (shellResult command r) s
      rw [he]
      exact ⟨hf, hfailed s hs⟩

/-- What the history shows after `validate`, and after `backup`. -/
def Validated (cfg : DaemonConfig) (k : Call) (T : Dir) (log : Log) : Prop := cfg.dryRun = false → Tested cfg log k.t T

def Secured (cfg : DaemonConfig) (k : Call) (T : Dir) (log : Log) : Prop := Validated cfg k T log ∧ BackedUp log k.t

theorem grows_validated {T : Dir} : Grows (Validated cfg k T) := fun _ _ hl h hd => (h hd).mono hl

theorem grows_secured {T : Dir} : Grows (Secured cfg k T) := fun _ _ hl h => ⟨grows_validated _ _ hl h.1, h.2.mono hl⟩

theorem triple_validate {T : Dir} (conf : PathBuf) :
    (applyProtocol cfg gated closed w₀).Triple (machine.machineOn ok) k.t
      (Prepared cfg gated w₀ k T fun _ => True) (validate cfg conf).run
      (StagePost cfg gated w₀ ok k fun _ => Prepared cfg gated w₀ k T (Validated cfg k T)) := by
  have htrue : Grows fun _ => True := fun _ _ _ _ => trivial
  unfold validate
  split
  · rename_i hdry
    exact triple_pure (steady_prepared htrue).stable fun s _ h =>
      ⟨h.before, h.previous, h.staging, h.renders, fun hd => absurd (hdry.symm.trans hd) (by decide)⟩
  · refine triple_runShell (steady_prepared htrue) (steady_prepared grows_validated)
      (fun _ h => h.before.failed) fun s s' hs hs' hlog => ?_
    have htested : Tested cfg s'.log k.t T := ⟨_, s.now, s'.now, hlog ▸ List.mem_cons_self, hs.staging⟩
    exact ⟨hs'.before, hs'.previous, hs'.staging, hs'.renders, fun _ => htested⟩

/-- After an operation before the switch: `B`, or a fault. -/
def StepPost (cfg : DaemonConfig) (gated : Prop) (w₀ : World) (ok : Choice → Prop) (k : Call)
    (B : Moment → Prop) (r : Except String Unit) (s : Moment) : Prop :=
  (r = .ok () ∧ B s) ∨ (∃ e, r = .error e) ∧ Faulty ok ∧ Before cfg gated w₀ k s

theorem stable_stepPost {B : Moment → Prop} (hB : Steady cfg gated w₀ k B) (r : Except String Unit) :
    (applyProtocol cfg gated closed w₀).Stable k.t (StepPost cfg gated w₀ ok k B r) := by
  intro s s' h hr
  rcases h with ⟨hok, hs⟩ | ⟨herr, hf, hs⟩
  · exact .inl ⟨hok, hB.stable s s' hs hr⟩
  · exact .inr ⟨herr, hf, steady_before.stable s s' hs hr⟩

/-- `?` on an operation before the switch, and then the rest. -/
theorem triple_step {A B : Moment → Prop} {p : Code (Except String Unit)} {α : Type} {C : α → Moment → Prop}
    {f : Unit → Fallible α} (hB : Steady cfg gated w₀ k B)
    (hp : (applyProtocol cfg gated closed w₀).Triple (machine.machineOn ok) k.t A p
      (StepPost cfg gated w₀ ok k B))
    (hf : (applyProtocol cfg gated closed w₀).Triple (machine.machineOn ok) k.t B (f ()).run
      (StagePost cfg gated w₀ ok k C)) :
    (applyProtocol cfg gated closed w₀).Triple (machine.machineOn ok) k.t A (attempt p >>= f).run
      (StagePost cfg gated w₀ ok k C) := by
  refine triple_attempt hp (stable_stepPost hB) (fun _ s hs => ?_) fun e s _ hs => ?_
  · rcases hs with ⟨-, hs⟩ | ⟨⟨e, he⟩, -⟩
    · exact hf s hs
    · cases he
  · rcases hs with ⟨he, -⟩ | ⟨-, hfault, hb⟩
    · cases he
    · exact ⟨hfault, hb.failed⟩

/-- An operation that makes a directory above those of the pipeline. -/
theorem Prepared.hold {T : Dir} {ev : Log → Prop} (hev : Grows ev) {x : Holder} {s s' : Moment} {c : Choice}
    {r : Except String Unit} (h : Prepared cfg gated w₀ k T ev s) (hc : ok c)
    (hio : s.now.io c (fun d => (.ok (), d.hold x true)) (fun f d => d.hold x f.made) = (r, s'.now))
    (hb : Before cfg gated w₀ k s') (hbeside : s'.now.disk.dirs = s.now.disk.dirs → Beside cfg k.t s s') :
    StepPost cfg gated w₀ ok k (Prepared cfg gated w₀ k T ev) r s' := by
  obtain ⟨hd, rfl | ⟨he, hf⟩⟩ := exec_hold hio
  · exact .inl ⟨rfl, (steady_prepared hev).beside s s' h hb.working (hbeside hd)⟩
  · exact .inr ⟨he, ⟨c, hc, hf⟩, hb⟩

theorem triple_createBackupsDir {T : Dir} {ev : Log → Prop} (hev : Grows ev) :
    (applyProtocol cfg gated closed w₀).Triple (machine.machineOn ok) k.t (Prepared cfg gated w₀ k T ev)
      (perform .createBackupsDir) (StepPost cfg gated w₀ ok k (Prepared cfg gated w₀ k T ev)) := by
  refine Triple.perform (steady_prepared hev).stable (stable_stepPost (steady_prepared hev)) ?_
  exact performs_before (o := .createBackupsDir) trivial id (fun s h => h.before)
    (fun _ _ _ _ h => by rw [(exec_hold (Option.some.inj h)).1]) fun s r s' c hs hc hexec hlog hb =>
      hs.hold hev hc (Option.some.inj hexec) hb (.of_step (o := .createBackupsDir) hlog id fun h => by cases h)

theorem triple_createParentOf {T : Dir} {ev : Log → Prop} (hev : Grows ev) (l : Location) :
    (applyProtocol cfg gated closed w₀).Triple (machine.machineOn ok) k.t (Prepared cfg gated w₀ k T ev)
      (perform (.createParentOf l)) (StepPost cfg gated w₀ ok k (Prepared cfg gated w₀ k T ev)) := by
  refine Triple.perform (steady_prepared hev).stable (stable_stepPost (steady_prepared hev)) ?_
  exact performs_before (o := .createParentOf l) trivial id (fun s h => h.before)
    (fun _ _ _ _ h => by rw [(exec_hold (Option.some.inj h)).1]) fun s r s' c hs hc hexec hlog hb =>
      hs.hold hev hc (Option.some.inj hexec) hb (.of_step (o := .createParentOf l) hlog id fun h => by cases h)

theorem triple_backup {T : Dir} :
    (applyProtocol cfg gated closed w₀).Triple (machine.machineOn ok) k.t
      (Prepared cfg gated w₀ k T (Validated cfg k T)) (backup cfg).run
      (StagePost cfg gated w₀ ok k fun _ => Prepared cfg gated w₀ k T (Secured cfg k T)) := by
  have hsteady : Steady cfg gated w₀ k (Prepared cfg gated w₀ k T (Validated cfg k T)) := steady_prepared grows_validated
  refine triple_ask (B := fun _ => Prepared cfg gated w₀ k T (Validated cfg k T)) hsteady.stable
    (fun _ => hsteady.stable) ?_ fun now => ?_
  · refine performs_aside (o := .now) trivial fun s r s' c hs _ _ hexec hlog ha _ => ?_
    have hw := hs.before.working.step (o := .now) trivial hexec hlog
    exact hsteady.beside s s' hs hw (.of_step (o := .now) hlog id (fun h => by cases h) ha.dirs)
  refine triple_step hsteady (triple_createBackupsDir grows_validated) ?_
  refine StagePost.bind (B := fun _ => Prepared cfg gated w₀ k T (Secured cfg k T)) ?_ fun _ => ?_
  · refine triple_runShell hsteady (steady_prepared grows_secured) (fun _ h => h.before.failed)
      fun s s' _ hs' hlog => ?_
    have hbacked : BackedUp s'.log k.t := ⟨_, _, s.now, s'.now, hlog ▸ List.mem_cons_self⟩
    exact ⟨hs'.before, hs'.previous, hs'.staging, hs'.renders, hs'.ev, hbacked⟩
  · exact triple_pure (steady_prepared grows_secured).stable fun s _ h => h

/-! ### The switch -/

/-- What the call knows of `l` after a test. -/
def Told (ok : Choice → Prop) (k : Call) (l : Location) : Bool → Moment → Prop
  | true, s => s.now.disk.dirs l ≠ none
  | false, s => s.now.disk.dirs l = none ∨ l ∈ denials s.log k.t ∧ Faulty ok

theorem Told.beside {l : Location} {r : Bool} {s s' : Moment} (h : Told ok k l r s) (hc : Beside cfg k.t s s') :
    Told ok k l r s' := by
  cases r with
  | true => rw [Told, hc.dirs]; exact h
  | false => exact h.imp (fun hnone => by rw [hc.dirs]; exact hnone) (And.imp_left (denials_subset hc.log ·))

theorem steady_and_told {A : Moment → Prop} (hA : Steady cfg gated w₀ k A) (l : Location) (r : Bool) :
    Steady cfg gated w₀ k fun s => A s ∧ Told ok k l r s where
  working s h := hA.working s h.1
  beside s s' h hw hc := ⟨hA.beside s s' h.1 hw hc, h.2.beside hc⟩

theorem triple_exists {A : Moment → Prop} (hA : Steady cfg gated w₀ k A) {l : Location} (hl : l ≠ cfg.staging)
    {α : Type} {f : Bool → Fallible α} {Q : Except DaemonError α → Moment → Prop}
    (hf : ∀ r, (applyProtocol cfg gated closed w₀).Triple (machine.machineOn ok) k.t
      (fun s => A s ∧ Told ok k l r s) (f r).run Q) :
    (applyProtocol cfg gated closed w₀).Triple (machine.machineOn ok) k.t A (ask (.exists l) >>= f).run Q := by
  refine triple_ask hA.stable (fun r => (steady_and_told hA l r).stable) ?_ hf
  refine performs_aside (o := .exists l) trivial fun s r s' c hs _ hc hexec hlog ha _ => ?_
  have hne : Op.exists l ≠ .exists cfg.staging := fun h => hl (Op.exists.inj h)
  have hw := (hA.working s hs).step (o := .exists l) trivial hexec hlog
  refine ⟨hA.beside s s' hs hw (.of_step (o := .exists l) hlog id hne ha.dirs), ?_⟩
  obtain ⟨hnow, rfl | ⟨rfl, hd, hf⟩⟩ := exec_exists hexec
  · cases hd : s.now.disk.dirs l with
    | none => exact .inl (by rw [hnow, hd])
    | some tree => rw [Option.isSome_some, Told, hnow, hd]; exact Option.some_ne_none _
  · refine .inr ⟨?_, c, hc, hf⟩
    rw [denials_exists hlog, if_pos ⟨rfl, Option.isSome_iff_ne_none.2 hd⟩]
    exact List.mem_cons_self

/-- The `.previous` directory is out of the way, as far as the call knows. -/
structure Cleared (cfg : DaemonConfig) (gated : Prop) (w₀ : World) (ok : Choice → Prop) (k : Call) (T : Dir)
    (s : Moment) : Prop where
  before : Before cfg gated w₀ k s
  staging : s.now.disk.dirs cfg.staging = some T
  renders : Renders cfg k s.log T
  secured : Secured cfg k T s.log
  previous : s.now.disk.dirs cfg.previous = none ∨ (cfg.previous ∈ denials s.log k.t ∧ Faulty ok) ∧
    s.now.disk.dirs cfg.previous = k.dirs cfg.previous

theorem steady_cleared {T : Dir} : Steady cfg gated w₀ k (Cleared cfg gated w₀ ok k T) where
  working _ h := h.before.working
  beside s s' h hw hc := by
    refine ⟨steady_before.beside s s' h.before hw hc, by rw [hc.dirs]; exact h.staging, h.renders.beside hc,
      grows_secured _ _ hc.log h.secured, ?_⟩
    rw [hc.dirs]
    exact h.previous.imp_right (And.imp_left (And.imp_left (denials_subset hc.log ·)))

/-- Where the old runtime directory is when the switch comes: under `.previous`, or still at its place, because there
is none or it was denied to the call. -/
inductive Place (cfg : DaemonConfig) (ok : Choice → Prop) (k : Call) (s : Moment) : Prop
  | parked (hm : moves s.log k.t = [(cfg.runtime, cfg.previous)]) (hr : s.now.disk.dirs cfg.runtime = none)
      (hp : s.now.disk.dirs cfg.previous = k.dirs cfg.runtime) (hR : k.dirs cfg.runtime ≠ none)
  | still (hm : moves s.log k.t = []) (hr : s.now.disk.dirs cfg.runtime = k.dirs cfg.runtime)
      (hR : k.dirs cfg.runtime = none ∨ Faulty ok)
      (hp : s.now.disk.dirs cfg.previous = none ∨ cfg.previous ∈ denials s.log k.t ∧
        s.now.disk.dirs cfg.previous = k.dirs cfg.previous)

theorem Place.beside {s s' : Moment} (h : Place cfg ok k s) (hc : Beside cfg k.t s s') : Place cfg ok k s' := by
  cases h with
  | parked hm hr hp hR =>
    exact .parked (hc.moves.trans hm) (by rw [hc.dirs]; exact hr) (by rw [hc.dirs]; exact hp) hR
  | still hm hr hR hp =>
    refine .still (hc.moves.trans hm) (by rw [hc.dirs]; exact hr) hR ?_
    rw [hc.dirs]
    exact hp.imp_right (And.imp_left (denials_subset hc.log ·))

/-- Everything is ready for the switch. -/
structure Poised (cfg : DaemonConfig) (gated : Prop) (w₀ : World) (ok : Choice → Prop) (k : Call) (T : Dir)
    (s : Moment) : Prop where
  working : Working cfg gated w₀ k s
  staging : s.now.disk.dirs cfg.staging = some T
  renders : Renders cfg k s.log T
  secured : Secured cfg k T s.log
  place : Place cfg ok k s

theorem steady_poised {T : Dir} : Steady cfg gated w₀ k (Poised cfg gated w₀ ok k T) where
  working _ h := h.working
  beside _ _ h hw hc := ⟨hw, by rw [hc.dirs]; exact h.staging, h.renders.beside hc,
    grows_secured _ _ hc.log h.secured, h.place.beside hc⟩

/-- If nothing else is done, a parked directory is lost. -/
theorem Poised.failed {T : Dir} {s : Moment} (h : Poised cfg gated w₀ ok k T s) : Failed cfg gated w₀ k s := by
  refine .unswitched h.working ?_
  cases h.place with
  | parked hm hr _ hR => rw [hm, hr]; exact .lost hR
  | still hm hr => rw [hm, hr]; exact .kept

variable (hdirs : cfg.DirsApart)
include hdirs

theorem triple_removePrevious {T : Dir} :
    (applyProtocol cfg gated closed w₀).Triple (machine.machineOn ok) k.t
      (fun s => Prepared cfg gated w₀ k T (Secured cfg k T) s ∧ Told ok k cfg.previous true s)
      (perform (.removeDirAll cfg.previous)) (StepPost cfg gated w₀ ok k (Cleared cfg gated w₀ ok k T)) := by
  refine Triple.perform (steady_and_told (steady_prepared grows_secured) _ _).stable (stable_stepPost steady_cleared) ?_
  refine performs_before (o := .removeDirAll cfg.previous) trivial id (fun s h => h.1.before)
    (fun _ _ _ _ h => (exec_removeDirAll h).1 _ hdirs.runtime_previous.ne)
    fun s r s' c hs hc hexec hlog hb => ?_
  obtain ⟨hframe, ⟨rfl, hnone⟩ | ⟨e, rfl, hf | hmissing⟩⟩ := exec_removeDirAll hexec
  · have hstaging : s'.now.disk.dirs cfg.staging = some T := by
      rw [hframe _ hdirs.staging_previous.ne]; exact hs.1.staging
    have hrenders := hs.1.renders.step hlog fun h => by cases h
    exact .inl ⟨rfl, hb, hstaging, hrenders, grows_secured _ _ (suffix_of_cons hlog) hs.1.ev, .inl hnone⟩
  · exact .inr ⟨⟨e, rfl⟩, ⟨c, hc, hf⟩, hb⟩
  · exact absurd hmissing hs.2

theorem triple_park {T : Dir} :
    (applyProtocol cfg gated closed w₀).Triple (machine.machineOn ok) k.t
      (fun s => Cleared cfg gated w₀ ok k T s ∧ Told ok k cfg.runtime true s)
      (perform (.rename cfg.runtime cfg.previous)) (StepPost cfg gated w₀ ok k (Poised cfg gated w₀ ok k T)) := by
  refine Triple.perform (steady_and_told steady_cleared _ _).stable (stable_stepPost steady_poised) ?_
  refine performs_pipeline (o := .rename cfg.runtime cfg.previous) trivial (fun s h => h.1.before.working)
    fun s r s' c hs hc hexec hlog hw => ?_
  have hrenders := hs.1.renders.step hlog fun h => by cases h
  rcases exec_rename hdirs.runtime_previous.ne hexec with
    ⟨old, rfl, hold, hnone, hprev, hframe⟩ | ⟨e, rfl, hsame, hcause⟩
  · have hparked : s'.now.disk.dirs cfg.previous = k.dirs cfg.runtime := by
      rw [hprev, ← hold]; exact hs.1.before.runtime
    have hstaging : s'.now.disk.dirs cfg.staging = some T := by
      rw [hframe _ hdirs.staging_runtime.ne hdirs.staging_previous.ne]; exact hs.1.staging
    have hthere : k.dirs cfg.runtime ≠ none := by
      rw [← hs.1.before.runtime, hold]; exact Option.some_ne_none _
    refine ⟨fun T' hT' => ?_, .inl ⟨rfl, hw, hstaging, hrenders, grows_secured _ _ (suffix_of_cons hlog) hs.1.secured,
      .parked ?_ hnone hparked hthere⟩⟩
    · rw [hnone] at hT'; cases hT'
    · rw [moves_done hlog, hs.1.before.unmoved]
  · have hb : Before cfg gated w₀ k s' :=
      ⟨hw, (moves_failed hlog).trans hs.1.before.unmoved, by rw [hsame]; exact hs.1.before.runtime⟩
    refine ⟨fun T' hT' => .inl (by rw [← hsame]; exact hT'), .inr ⟨⟨e, rfl⟩, ?_, hb⟩⟩
    rcases hcause with hf | hmissing | hthere
    · exact ⟨c, hc, hf⟩
    · exact absurd hmissing hs.2
    · exact (hs.1.previous.resolve_left hthere).1.2

theorem performs_switch {T : Dir} :
    (applyProtocol cfg gated closed w₀).Performs (machine.machineOn ok) k.t (Poised cfg gated w₀ ok k T)
      (.rename cfg.staging cfg.runtime) fun r s =>
        (r = .ok () ∧ Live cfg gated w₀ k T s) ∨ (∃ e, r = .error e) ∧ Faulty ok ∧ Poised cfg gated w₀ ok k T s := by
  refine performs_pipeline (o := .rename cfg.staging cfg.runtime) trivial (fun s h => h.working)
    fun s r s' c hs hc hexec hlog hw => ?_
  have hrenders := hs.renders.step hlog fun h => by cases h
  rcases exec_rename hdirs.staging_runtime.ne hexec with ⟨T', rfl, hT', -, hnew, -⟩ | ⟨e, rfl, hsame, hcause⟩
  · rw [hs.staging, Option.some.injEq] at hT'
    subst hT'
    have hswitched : Switched cfg s'.log k.t T := ⟨s.now, s'.now, hlog ▸ List.mem_cons_self, hs.staging⟩
    refine ⟨fun T' hT' => .inr (.inr (.inr ?_)), .inl ⟨rfl, hw, hswitched, hrenders, hnew⟩⟩
    rw [hnew, Option.some.injEq] at hT'
    subst hT'
    exact ⟨hs.secured.1, hs.secured.2, hs.renders.eq_or⟩
  · have hbeside : Beside cfg k.t s s' :=
      ⟨suffix_of_cons hlog, moves_failed hlog, staging_denied hlog (fun h => by cases h), hsame⟩
    refine ⟨fun T' hT' => .inl (by rw [← hsame]; exact hT'),
      .inr ⟨⟨e, rfl⟩, ?_, steady_poised.beside s s' hs hw hbeside⟩⟩
    rcases hcause with hf | hmissing | hthere
    · exact ⟨c, hc, hf⟩
    · rw [hs.staging] at hmissing; cases hmissing
    · cases hs.place with
      | parked _ hr => exact absurd hr hthere
      | still _ hr hR => exact hR.resolve_left (hr ▸ hthere)

/-- The rename back brings the old runtime directory, or an older one that was denied to the call. -/
theorem performs_restore {T : Dir} :
    (applyProtocol cfg gated closed w₀).Performs (machine.machineOn ok) k.t (Poised cfg gated w₀ ok k T)
      (.rename cfg.previous cfg.runtime) fun _ => Failed cfg gated w₀ k := by
  refine performs_pipeline (o := .rename cfg.previous cfg.runtime) trivial (fun s h => h.working)
    fun s r s' c hs hc hexec hlog hw => ?_
  rcases exec_rename (Ne.symm hdirs.runtime_previous.ne) hexec with ⟨old, rfl, hold, -, hnew, -⟩ | ⟨e, rfl, hsame, -⟩
  · have hmoves := moves_done hlog
    cases hs.place with
    | parked hm hr hp hR =>
      rw [hold] at hp
      refine ⟨fun T' hT' => .inr (.inl ?_), .unswitched hw ?_⟩
      · rw [← hp, ← hnew]; exact hT'
      · rw [hmoves, hm, hnew, hp]
        exact .restored
    | still hm hr hR hp =>
      rw [hold] at hp
      obtain ⟨hdenied, hp⟩ := hp.resolve_left (Option.some_ne_none _)
      refine ⟨fun T' _ => .inr (.inr (.inl hdenied)), .unswitched hw ?_⟩
      rw [hmoves, hm, hnew, hp]
      exact .revived
  · have hbeside : Beside cfg k.t s s' :=
      ⟨suffix_of_cons hlog, moves_failed hlog, staging_denied hlog (fun h => by cases h), hsame⟩
    exact ⟨fun T' hT' => .inl (by rw [← hsame]; exact hT'), (steady_poised.beside s s' hs hw hbeside).failed⟩

theorem triple_restorePrevious {T : Dir} (err : String) :
    (applyProtocol cfg gated closed w₀).Triple (machine.machineOn ok) k.t
      (fun s => Faulty ok ∧ Poised cfg gated w₀ ok k T s) (restorePrevious cfg err).run
      (StagePost cfg gated w₀ ok k fun _ => Live cfg gated w₀ k T) := by
  rintro s ⟨hfault, hs⟩
  refine triple_exists steady_poised (Ne.symm hdirs.staging_previous.ne) (fun r => ?_) s hs
  cases r with
  | false =>
    refine triple_throw (steady_and_told steady_poised _ _).stable fun s _ h => ⟨hfault, h.1.failed⟩
  | true =>
    refine Triple.conseq (A := Poised cfg gated w₀ ok k T) ?_ (fun _ h => h.1) fun _ _ _ h => h
    rw [whenever, if_pos rfl, bind_assoc]
    refine triple_ask steady_poised.stable (fun _ => steady_failed.stable) (performs_restore hdirs) fun _ => ?_
    exact triple_throw steady_failed.stable fun s _ h => ⟨hfault, h⟩

theorem triple_removeOld {T : Dir} :
    (applyProtocol cfg gated closed w₀).Triple (machine.machineOn ok) k.t (Live cfg gated w₀ k T)
      (do
        whenever (← ask (.exists cfg.previous)) (attempt (perform (.removeDirAll cfg.previous))) : Fallible Unit).run
      (StagePost cfg gated w₀ ok k fun _ => Live cfg gated w₀ k T) := by
  refine triple_exists steady_live (Ne.symm hdirs.staging_previous.ne) fun r => ?_
  cases r with
  | false => exact triple_pure (steady_and_told steady_live _ _).stable fun s _ h => h.1
  | true =>
    let B : Except String Unit → Moment → Prop := fun r s =>
      Live cfg gated w₀ k T s ∧ (r = .ok () ∨ (∃ e, r = .error e) ∧ Faulty ok)
    have hB : ∀ r, (applyProtocol cfg gated closed w₀).Stable k.t (B r) :=
      fun r s s' h hr => ⟨steady_live.stable s s' h.1 hr, h.2⟩
    refine (Triple.perform (Q := B) (steady_and_told steady_live _ _).stable hB ?_).bind fun r =>
      Triple.pure (hB r) fun s _ h => ?_
    · refine performs_pipeline (o := .removeDirAll cfg.previous) trivial (fun s h => h.1.working)
        fun s r s' c hs hc hexec hlog hw => ?_
      obtain ⟨hframe, hres⟩ := exec_removeDirAll hexec
      have hrun := hframe _ hdirs.runtime_previous.ne
      have hlive : Live cfg gated w₀ k T s' :=
        ⟨hw, hs.1.switched.mono (suffix_of_cons hlog), hs.1.renders.step hlog (fun h => by cases h),
          by rw [hrun]; exact hs.1.runtime⟩
      refine ⟨fun T' hT' => .inl (by rw [← hrun]; exact hT'), hlive, ?_⟩
      rcases hres with ⟨rfl, -⟩ | ⟨e, rfl, hf | hmissing⟩
      · exact .inl rfl
      · exact .inr ⟨⟨e, rfl⟩, c, hc, hf⟩
      · exact absurd hmissing hs.2
    · rcases h with ⟨hlive, rfl | ⟨⟨e, rfl⟩, hf⟩⟩
      · exact hlive
      · exact ⟨hf, .switched hlive⟩

theorem triple_switchRuntime {T : Dir} :
    (applyProtocol cfg gated closed w₀).Triple (machine.machineOn ok) k.t (Poised cfg gated w₀ ok k T)
      (switchRuntime cfg).run (StagePost cfg gated w₀ ok k fun _ => Live cfg gated w₀ k T) := by
  refine triple_ask steady_poised.stable (fun r s s' h hr => ?_) (performs_switch hdirs) fun r => ?_
  · rcases h with ⟨hok, hs⟩ | ⟨herr, hf, hs⟩
    · exact .inl ⟨hok, steady_live.stable s s' hs hr⟩
    · exact .inr ⟨herr, hf, steady_poised.stable s s' hs hr⟩
  · rintro s (⟨rfl, hs⟩ | ⟨⟨e, rfl⟩, hf, hs⟩)
    · exact triple_removeOld hdirs s hs
    · exact triple_restorePrevious hdirs e s ⟨hf, hs⟩

theorem triple_commitStaging {T : Dir} :
    (applyProtocol cfg gated closed w₀).Triple (machine.machineOn ok) k.t
      (Prepared cfg gated w₀ k T (Secured cfg k T)) (commitStaging cfg).run
      (StagePost cfg gated w₀ ok k fun _ => Live cfg gated w₀ k T) := by
  -- what follows the removal of an old `.previous`
  have park : (applyProtocol cfg gated closed w₀).Triple (machine.machineOn ok) k.t (Cleared cfg gated w₀ ok k T) (do
      whenever (← ask (.exists cfg.runtime)) (attempt (perform (.rename cfg.runtime cfg.previous)))
      switchRuntime cfg : Fallible Unit).run (StagePost cfg gated w₀ ok k fun _ => Live cfg gated w₀ k T) := by
    refine triple_exists steady_cleared (Ne.symm hdirs.staging_runtime.ne) fun r => ?_
    cases r with
    | true => exact triple_step steady_poised (triple_park hdirs) (triple_switchRuntime hdirs)
    | false =>
      refine (triple_switchRuntime hdirs).conseq (fun s h => ?_) fun _ _ _ h => h
      have hb := h.1.before
      have hR : k.dirs cfg.runtime = none ∨ Faulty ok := h.2.imp (hb.runtime ▸ ·) And.right
      have hp := h.1.previous.imp_right (And.imp_left And.left)
      exact ⟨hb.working, h.1.staging, h.1.renders, h.1.secured, .still hb.unmoved hb.runtime hR hp⟩
  have hsteady : Steady cfg gated w₀ k (Prepared cfg gated w₀ k T (Secured cfg k T)) := steady_prepared grows_secured
  refine triple_step hsteady (triple_createParentOf grows_secured _) ?_
  refine triple_exists hsteady (Ne.symm hdirs.staging_previous.ne) fun r => ?_
  cases r with
  | true => exact triple_step steady_cleared (triple_removePrevious hdirs) park
  | false =>
    refine park.conseq (fun s h => ⟨h.1.before, h.1.staging, h.1.renders, h.1.ev, ?_⟩) fun _ _ _ h => h
    exact h.2.imp_right fun hdenied => ⟨hdenied, h.1.previous⟩

/-- The new tree is in the runtime directory, and nginx has been told. -/
structure Finished (cfg : DaemonConfig) (gated : Prop) (w₀ : World) (k : Call) (T : Dir) (s : Moment) : Prop where
  live : Live cfg gated w₀ k T s
  reloaded : cfg.dryRun = false → Reloaded cfg s.log k.t

omit hdirs in
theorem steady_finished {T : Dir} : Steady cfg gated w₀ k (Finished cfg gated w₀ k T) where
  working _ h := h.live.working
  beside s s' h hw hc := ⟨steady_live.beside s s' h.live hw hc, fun hd => (h.reloaded hd).mono hc.log⟩

omit hdirs in
theorem triple_reload {T : Dir} :
    (applyProtocol cfg gated closed w₀).Triple (machine.machineOn ok) k.t (Live cfg gated w₀ k T) (reload cfg).run
      (StagePost cfg gated w₀ ok k fun _ => Finished cfg gated w₀ k T) := by
  unfold reload
  split
  · rename_i hdry
    exact triple_pure steady_live.stable fun s _ h => ⟨h, fun hd => absurd (hdry.symm.trans hd) (by decide)⟩
  refine triple_runShell steady_live steady_finished (fun _ h => .switched h) fun s s' hs hs' hlog => ?_
  have hreloaded : Reloaded cfg s'.log k.t := ⟨_, s.now, s'.now, s.log, ⟨[], hlog.symm⟩, _, hs.switched⟩
  exact ⟨hs', fun _ => hreloaded⟩

/-- The end of a pipeline that succeeds with `hash`. -/
def Succeeded (cfg : DaemonConfig) (gated : Prop) (w₀ : World) (ok : Choice → Prop) (k : Call) (hash : String)
    (s : Moment) : Prop :=
  ∃ T, hash = hashDirectory cfg.stagingDir T ∧ Dir.collect cfg.stagingDir T ≠ [] ∧
    (T = renderTree k.x ∨ Faulty ok) ∧ Finished cfg gated w₀ k T s

/-- The pipeline: it succeeds with a rendered tree in the runtime directory, or it is hit by a fault. -/
theorem triple_pipeline :
    (applyProtocol cfg gated closed w₀).Triple (machine.machineOn ok) k.t
      (Staged cfg (Rendering cfg gated w₀ k False) (k.dirs cfg.staging)) (pipeline cfg k.x).run
      (StagePost cfg gated w₀ ok k (Succeeded cfg gated w₀ ok k)) := by
  have htrue : Grows fun _ => True := fun _ _ _ _ => trivial
  refine StagePost.bind (B := fun r s => ∃ T, (r.configHash = hashDirectory cfg.stagingDir T ∧
    Dir.collect cfg.stagingDir T ≠ [] ∧ (T = renderTree k.x ∨ Faulty ok)) ∧
    Prepared cfg gated w₀ k T (fun _ => True) s) ?_ fun rendered => ?_
  · refine (triple_renderToStaging (stagingFrame_rendering hdirs) (stagingFrame_rendering hdirs) looks_rendering k.x
      (k.dirs cfg.staging)).post fun r s _ h => ?_
    cases r with
    | ok r =>
      obtain ⟨T, hhash, hread, hcase⟩ := h
      have prepared : ∀ {denied : Prop}, renderOnto k.x (leftover cfg k.dirs (denials s.log k.t)) = some T →
          Staged cfg (Rendering cfg gated w₀ k denied) (some T) s → Dir.collect cfg.stagingDir T ≠ [] ∧
            Prepared cfg gated w₀ k T (fun _ => True) s := fun honto hs =>
        ⟨collect_renderOnto honto _, hs.1.before, hs.1.previous, hs.2, ⟨honto, hread⟩, trivial⟩
      rcases hcase with ⟨rfl, hs⟩ | ⟨⟨base, hbase, honto⟩, hfault, hs⟩
      · have hseen : cfg.staging ∉ denials s.log k.t := hs.1.staging.1
        obtain ⟨hfile, hprep⟩ := prepared (by rw [leftover, if_neg hseen, renderOnto_nil]) hs
        exact ⟨_, ⟨hhash, hfile, .inl rfl⟩, hprep⟩
      · have hdenied : cfg.staging ∈ denials s.log k.t := hs.1.staging.2 trivial
        obtain ⟨hfile, hprep⟩ := prepared (by rw [leftover, if_pos hdenied, hbase, Option.getD_some, honto]) hs
        exact ⟨T, ⟨hhash, hfile, .inr hfault⟩, hprep⟩
    | error e =>
      obtain ⟨hfault, h | h⟩ := h
      · exact ⟨hfault, h.before.failed⟩
      · exact ⟨hfault, h.before.failed⟩
  rintro s ⟨T, ⟨hhash, hfile, hT⟩, hs⟩
  refine StagePost.bind (triple_validate _) (fun _ => ?_) s hs
  refine StagePost.bind triple_backup fun _ => ?_
  refine StagePost.bind (triple_commitStaging hdirs) fun _ => ?_
  refine StagePost.bind triple_reload fun _ => ?_
  exact triple_pure steady_finished.stable fun s _ h => ⟨T, hhash, hfile, hT, h⟩

end Stages

end NginxAdmin.Daemon
