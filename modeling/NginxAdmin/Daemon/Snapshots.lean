import NginxAdmin.Daemon.ApplyInv
import NginxAdmin.Daemon.Timestamp
import NginxAdmin.Daemon.Revisions

/-!
# The archives of the backups

`backup` names its archive after the clock, to the second (`snapshotId_inj`). Two pipelines that read the
clock in one second use one archive, and the later replaces what the earlier has saved
(`snapshot_replaced`); as long as no two do, every successful apply keeps an archive of its own
(`snapshots_kept`).
-/

namespace NginxAdmin.Daemon

open Protocol

theorem snapshotArchive_inj {cfg : DaemonConfig} {n m : DateTime} (h : snapshotArchive cfg n = snapshotArchive cfg m) :
    n / 1000000000 = m / 1000000000 := by
  refine snapshotId_inj ?_
  simpa [snapshotArchive, PathBuf.join] using h

/-- Whose backup command an event is, and the archive it writes to. -/
def tarOf : Event Op.Res World → Option (Nat × PathBuf)
  | .did t (.sh (.tar _ archive)) _ _ _ => some (t, archive)
  | _ => none

def tars (log : Log) : List (Nat × PathBuf) := log.filterMap tarOf

/-- Whose apply an event completes. -/
def appliedBy : Event Op.Res World → Option Nat
  | .did t (.updateStatus (.inSync ..)) _ _ _ => some t
  | _ => none

/-- The threads whose apply has succeeded: each thread runs one call, which ends in `mark_in_sync`. -/
def applies (log : Log) : List Nat := log.filterMap appliedBy

/-- Who has read the clock, and what it said. -/
def clockOf : Event Op.Res World → Option (Nat × DateTime)
  | .did t .now n _ _ => some (t, n)
  | _ => none

def clockReads (log : Log) : List (Nat × DateTime) := log.filterMap clockOf

/-- The operations that neither write an archive nor complete an apply. -/
def Op.Spares : Op → Prop
  | sh (.tar ..) => False
  | updateStatus (.inSync ..) => False
  | _ => True

theorem Op.OnTrees.spares {o : Op} (h : o.OnTrees) : o.Spares := by
  cases o <;> first | exact trivial | exact h.elim

theorem Op.Spares.tarOf_eq {o : Op} (h : o.Spares) (t : Nat) (r : o.Res) (pre post : World) :
    tarOf (.did t o r pre post) = none := by
  unfold tarOf
  split
  · rename_i he
    cases he
    exact h.elim
  · rfl

theorem Op.Spares.appliedBy_eq {o : Op} (h : o.Spares) (t : Nat) (r : o.Res) (pre post : World) :
    appliedBy (.did t o r pre post) = none := by
  unfold appliedBy
  split
  · rename_i he
    cases he
    exact h.elim
  · rfl

theorem io_archives {w : World} {c : Choice} {f : Disk → Except String Unit × Disk} {g : Fault → Disk → Disk}
    (hf : (f w.disk).2.archives = w.disk.archives) (hg : ∀ x, (g x w.disk).archives = w.disk.archives) :
    (w.io c f g).2.disk.archives = w.disk.archives := by
  unfold World.io
  split
  · exact hg _
  · exact hf

theorem modifyDir_archives (d : Disk) (l : Location) (f : Dir → Option Dir) :
    (d.modifyDir l f).2.archives = d.archives := by
  unfold Disk.modifyDir; split <;> rfl

theorem rename_archives (d : Disk) (l l' : Location) : (d.rename l l').2.archives = d.archives := by
  unfold Disk.rename
  split
  · rfl
  · split
    · rfl
    · split <;> rfl

theorem renameTmp_archives (d : Disk) : d.renameTmp.2.archives = d.archives := by
  unfold Disk.renameTmp; split <;> rfl

/-- Only the backup command changes an archive. -/
theorem archives_of_exec {t : Nat} {o : Op} {c : Choice} {w w' : World} {r : o.Res} (ho : o.Spares)
    (h : o.exec t c w = some (r, w')) : w'.disk.archives = w.disk.archives := by
  -- what an operation on the disk leaves
  have io : ∀ {f : Disk → Except String Unit × Disk} {g : Fault → Disk → Disk} {r : Except String Unit},
      some (w.io c f g) = some (r, w') → (f w.disk).2.archives = w.disk.archives →
      (∀ x, (g x w.disk).archives = w.disk.archives) → w'.disk.archives = w.disk.archives := by
    intro f g r h hf hg
    have hw' : w' = (w.io c f g).2 := (congrArg Prod.snd (Option.some.inj h)).symm
    rw [hw']
    exact io_archives hf hg
  cases o <;> simp only [Op.exec] at h
  case lockState | readState | lockApply | externalEdit => split at h <;> cases h; rfl
  case readStateFile | readTree => split at h <;> cases h <;> rfl
  case createStateDir | createParentOf | createBackupsDir | writeStateTmp => exact io h rfl fun _ => rfl
  case renameStateTmp => exact io h (renameTmp_archives _) fun _ => rfl
  case createDirAll | writeFile => exact io h (modifyDir_archives ..) fun _ => rfl
  case removeDirAll =>
    refine io h ?_ fun _ => rfl
    split <;> rfl
  case rename => exact io h (rename_archives ..) fun _ => rfl
  case sh command =>
    cases command with
    | tar => exact ho.elim
    | nginxTest | reload =>
      split at h
      · cases h; rfl
      · split at h <;> cases h <;> rfl
  case runJob =>
    obtain ⟨w₁, hw, h⟩ := Option.map_eq_some_iff.1 h
    cases h
    unfold World.runJob at hw
    split at hw
    · cases hw
    · dsimp only at hw
      split at hw <;> obtain rfl := Option.some.inj hw
      · exact io_archives rfl fun _ => rfl
      · exact io_archives (renameTmp_archives _) fun _ => rfl
  all_goals cases h; rfl

theorem archives_of_tar {t : Nat} {text : String} {archive : PathBuf} {c : Choice} {w w' : World}
    {r : Except String ShellOutput} (h : (Op.sh (.tar text archive)).exec t c w = some (r, w')) :
    (∀ p, p ≠ archive → w'.disk.archives p = w.disk.archives p) ∧
      (r = .ok .success → ∃ a, w'.disk.archives archive = some a) := by
  simp only [Op.exec] at h
  split at h
  · cases h
    exact ⟨fun p hp => if_neg hp, fun _ => ⟨_, if_pos rfl⟩⟩
  · split at h
    · cases h
      exact ⟨fun _ _ => rfl, fun he => by cases he⟩
    · cases h
      exact ⟨fun p hp => if_neg hp, fun he => by cases he⟩

theorem archives_of_cancel {t : Nat} {o : Op} {w w' : World} (h : o.cancel t w = some w') :
    w'.disk.archives = w.disk.archives := by
  rcases cancel_cases h with h | ⟨jobs, -, h⟩ <;> rw [h] <;> rfl

/-! ### The invariant -/

section Run

variable (cfg : DaemonConfig) (reqs : List Request)

/-- What holds of the archives at every moment: a backup command belongs to a reconcile and writes to the
archive named after the time that this reconcile has read; what a successful one has written stays until
another thread writes to the same archive; every completed apply has run one. -/
structure SnapshotInv (s : Moment) : Prop where
  named : ∀ {t archive}, (t, archive) ∈ tars s.log →
    reqs[t]? = some .reconcile ∧ ∃ n, (t, n) ∈ clockReads s.log ∧ archive = snapshotArchive cfg n
  kept : ∀ {t text archive pre post}, .did t (.sh (.tar text archive)) (.ok .success) pre post ∈ s.log →
    (∃ a, post.disk.archives archive = some a ∧ s.now.disk.archives archive = some a) ∨
      ∃ u, u ≠ t ∧ (u, archive) ∈ tars s.log
  backed : ∀ {t}, t ∈ applies s.log → BackedUp s.log t

/-- The other threads only add events of their own to the history. -/
def snapshotProtocol : Protocol Moment where
  rely t s s' := ∃ l, s'.log = l ++ s.log ∧ ∀ e ∈ l, e.tid ≠ t
  inv := SnapshotInv cfg reqs
  refl _ _ := ⟨[], rfl, by simp⟩
  trans := by
    rintro t s s' s'' ⟨l, hl, ht⟩ ⟨l', hl', ht'⟩
    refine ⟨l' ++ l, by rw [hl', hl, List.append_assoc], fun e he => ?_⟩
    exact (List.mem_append.1 he).elim (ht' e) (ht e)

variable {cfg reqs} {t : Nat} {s s' : Moment}

theorem SnapshotInv.cons {e : Event Op.Res World} (h : SnapshotInv cfg reqs s) (hlog : s'.log = e :: s.log)
    (htar : tarOf e = none) (hkept : s'.now.disk.archives = s.now.disk.archives)
    (happlied : ∀ t, appliedBy e = some t → BackedUp s.log t) : SnapshotInv cfg reqs s' := by
  have hsuf : s.log <:+ s'.log := suffix_of_cons hlog
  have htars : tars s'.log = tars s.log := by rw [hlog, tars, List.filterMap_cons_none htar]; rfl
  refine ⟨fun ht => ?_, fun {t text archive pre post} he => ?_, fun {t} ht => ?_⟩
  · obtain ⟨hreq, n, hn, harch⟩ := h.named (htars ▸ ht)
    exact ⟨hreq, n, (hsuf.sublist.filterMap clockOf).subset hn, harch⟩
  · rw [hlog] at he
    rcases List.mem_cons.1 he with rfl | he
    · cases htar
    · rw [htars, hkept]
      exact h.kept he
  · rw [applies, List.mem_filterMap] at ht
    obtain ⟨e', he', ht⟩ := ht
    rw [hlog] at he'
    rcases List.mem_cons.1 he' with rfl | he'
    · exact (happlied t ht).mono hsuf
    · exact (h.backed (List.mem_filterMap.2 ⟨e', he', ht⟩)).mono hsuf

theorem SnapshotInv.tar {c : Choice} {text : String} {archive : PathBuf} {r : Except String ShellOutput} {n : DateTime}
    (h : SnapshotInv cfg reqs s) (hexec : (Op.sh (.tar text archive)).exec t c s.now = some (r, s'.now))
    (hlog : s'.log = .did t (.sh (.tar text archive)) r s.now s'.now :: s.log) (hclean : ∀ a, (t, a) ∉ tars s.log)
    (hreq : reqs[t]? = some .reconcile) (hread : (t, n) ∈ clockReads s.log) (harch : archive = snapshotArchive cfg n) :
    SnapshotInv cfg reqs s' := by
  have hsuf : s.log <:+ s'.log := suffix_of_cons hlog
  have htars : tars s'.log = (t, archive) :: tars s.log := by rw [hlog]; rfl
  have hclock : ∀ {x}, x ∈ clockReads s.log → x ∈ clockReads s'.log := fun hx => (hsuf.sublist.filterMap clockOf).subset hx
  obtain ⟨hothers, hself⟩ := archives_of_tar hexec
  refine ⟨fun {u a} hu => ?_, fun {u text' a pre post} he => ?_, fun {u} hu => ?_⟩
  · rw [htars] at hu
    rcases List.mem_cons.1 hu with hu | hu
    · obtain ⟨rfl, rfl⟩ := Prod.mk.inj hu
      exact ⟨hreq, n, hclock hread, harch⟩
    · obtain ⟨hreq', m, hm, ha⟩ := h.named hu
      exact ⟨hreq', m, hclock hm, ha⟩
  · rw [hlog] at he
    rcases List.mem_cons.1 he with he | hearlier
    · cases he
      obtain ⟨a, ha⟩ := hself rfl
      exact .inl ⟨a, ha, ha⟩
    · -- an earlier command: of another thread, since this one has not run any
      by_cases ha : a = archive
      · subst ha
        refine .inr ⟨t, ?_, by rw [htars]; exact List.mem_cons_self⟩
        rintro rfl
        exact hclean a (List.mem_filterMap.2 ⟨_, hearlier, rfl⟩)
      · rw [hothers a ha, htars]
        exact (h.kept hearlier).imp_right fun ⟨v, hv, hm⟩ => ⟨v, hv, List.mem_cons_of_mem _ hm⟩
  · have hu' : u ∈ applies s.log := by rw [hlog] at hu; exact hu
    exact (h.backed hu').mono hsuf

/-- The thread has not run a backup command. -/
def Clean (t : Nat) (s : Moment) : Prop := ∀ a, (t, a) ∉ tars s.log

/-- An assertion that only a backup command of thread `t` can make false. -/
def Lasts (t : Nat) (A : Moment → Prop) : Prop :=
  ∀ s s' l, A s → s'.log = l ++ s.log → (∀ e ∈ l, ∀ a, tarOf e ≠ some (t, a)) → A s'

theorem tid_of_tarOf {e : Event Op.Res World} {a : PathBuf} (h : tarOf e = some (t, a)) : e.tid = t := by
  unfold tarOf at h
  split at h
  · cases h; rfl
  · cases h

theorem Lasts.stable {A : Moment → Prop} (h : Lasts t A) : (snapshotProtocol cfg reqs).Stable t A := by
  rintro s s' hA ⟨l, hl, ht⟩
  exact h s s' l hA hl fun e he a hte => ht e he (tid_of_tarOf hte)

theorem Lasts.cons {A : Moment → Prop} (h : Lasts t A) {e : Event Op.Res World} (hA : A s)
    (hlog : s'.log = e :: s.log) (he : tarOf e = none) : A s' := by
  refine h s s' [e] hA hlog fun e' he' a => ?_
  rw [List.mem_singleton.1 he', he]
  exact (Option.some_ne_none _).symm

theorem lasts_clean : Lasts t (Clean t) := by
  intro s s' l hs hl hnone a ha
  rw [hl, tars, List.filterMap_append, List.mem_append] at ha
  rcases ha with ha | ha
  · obtain ⟨e, he, hte⟩ := List.mem_filterMap.1 ha
    exact hnone e he a hte
  · exact hs a ha

theorem lasts_backedUp : Lasts t fun s => BackedUp s.log t :=
  fun _ _ l h hl _ => h.mono ⟨l, hl.symm⟩

theorem lasts_read (n : DateTime) : Lasts t fun s => Clean t s ∧ (t, n) ∈ clockReads s.log := by
  rintro s s' l ⟨hs, hn⟩ hl hnone
  refine ⟨lasts_clean s s' l hs hl hnone, ?_⟩
  rw [hl, clockReads, List.filterMap_append]
  exact List.mem_append_right _ hn

theorem lasts_true : Lasts t fun _ => True := fun _ _ _ _ _ _ => trivial

theorem performs_snapshot {o : Op} {A : Moment → Prop} {Q : o.Res → Moment → Prop}
    (hstep : ∀ s r s' c, A s → SnapshotInv cfg reqs s → o.exec t c s.now = some (r, s'.now) →
      s'.log = .did t o r s.now s'.now :: s.log → SnapshotInv cfg reqs s' ∧ Q r s') :
    (snapshotProtocol cfg reqs).Performs machine.machine t A o Q := by
  have owed : ∀ {s s' : Moment} {e : Event Op.Res World}, s'.log = e :: s.log → e.tid = t →
      ∀ u, u ≠ t → (snapshotProtocol cfg reqs).rely u s s' := by
    intro s s' e hlog he u hu
    refine ⟨[e], hlog, fun e' he' => ?_⟩
    rw [List.mem_singleton.1 he', he]
    exact Ne.symm hu
  intro s hA hinv
  refine ⟨fun r s' h => ?_, fun s' h => ?_⟩
  · obtain ⟨⟨c, -, hexec⟩, hlog⟩ := Exec.traced_step.1 h
    obtain ⟨hinv', hQ⟩ := hstep s r s' c hA hinv hexec hlog
    exact ⟨⟨hinv', owed hlog rfl⟩, hQ⟩
  · obtain ⟨hcancel, hlog⟩ := Exec.traced_cancel.1 h
    have hinv' := SnapshotInv.cons hinv hlog rfl (archives_of_cancel hcancel) fun _ h => by cases h
    exact ⟨hinv', owed hlog rfl⟩

theorem performs_spares {o : Op} (ho : o.Spares) {A : Moment → Prop} (hA : Lasts t A) :
    (snapshotProtocol cfg reqs).Performs machine.machine t A o fun _ => A := by
  refine performs_snapshot fun s r s' c hs hinv hexec hlog => ⟨?_, hA.cons hs hlog (ho.tarOf_eq ..)⟩
  refine hinv.cons hlog (ho.tarOf_eq ..) (archives_of_exec ho hexec) fun u hu => ?_
  rw [ho.appliedBy_eq] at hu
  cases hu

theorem triple_spares {α : Type} {p : Code α} (hp : p.All Op.Spares) {A : Moment → Prop} (hA : Lasts t A) :
    (snapshotProtocol cfg reqs).Triple machine.machine t A p fun _ => A :=
  Triple.all hA.stable (fun _ ho => performs_spares ho hA) hp

theorem triple_snapshot_backup (hreq : reqs[t]? = some .reconcile) :
    (snapshotProtocol cfg reqs).Triple machine.machine t (Clean t) (backup cfg).run
      fun r s => r.toBool → BackedUp s.log t := by
  have hread : ∀ n, (snapshotProtocol cfg reqs).Stable t fun s => Clean t s ∧ (t, n) ∈ clockReads s.log :=
    fun n => (lasts_read n).stable
  refine triple_ask (o := .now) (B := fun n s => Clean t s ∧ (t, n) ∈ clockReads s.log) lasts_clean.stable hread ?_
    fun n => ?_
  · refine performs_snapshot fun s r s' c hs hinv hexec hlog => ⟨?_, lasts_clean.cons hs hlog rfl, ?_⟩
    · exact hinv.cons hlog rfl (archives_of_exec (o := .now) trivial hexec) fun _ h => by cases h
    · rw [hlog]
      exact List.mem_cons_self
  have hdir : (snapshotProtocol cfg reqs).Triple machine.machine t (fun s => Clean t s ∧ (t, n) ∈ clockReads s.log)
      (perform .createBackupsDir) fun _ s => Clean t s ∧ (t, n) ∈ clockReads s.log :=
    triple_spares (Prog.All.perform (o := Op.createBackupsDir) trivial) (lasts_read n)
  refine triple_attempt hdir (fun _ => hread n) (fun _ => ?_) fun e s _ _ h => by cases h
  -- the backup command, and what `run_shell` makes of its answer
  have hshell : (snapshotProtocol cfg reqs).Triple machine.machine t (fun s => Clean t s ∧ (t, n) ∈ clockReads s.log)
      (runShell (.tar ("tar -czf " ++ shellEscape (snapshotArchive cfg n) ++ " " ++ shellEscape "/etc/nginx" ++ " " ++
        shellEscape cfg.statePath) (snapshotArchive cfg n))).run fun r s => r.toBool → BackedUp s.log t := by
    refine triple_ask (B := fun r s => r = .ok .success → BackedUp s.log t) (hread n) (fun r => ?_) ?_ fun r => ?_
    · exact fun s s' h hr hok => lasts_backedUp.stable s s' (h hok) hr
    · refine performs_snapshot fun s r s' c hs hinv hexec hlog => ?_
      refine ⟨hinv.tar hexec hlog hs.1 hreq hs.2 rfl, ?_⟩
      rintro rfl
      exact ⟨_, _, s.now, s'.now, by rw [hlog]; exact List.mem_cons_self⟩
    · refine .pure (fun s s' h hr hok => lasts_backedUp.stable s s' (h hok) hr) fun s _ h hok => h ?_
      cases r with
      | error e => cases hok
      | ok out =>
        cases out with
        | success => rfl
        | failure stderr => cases hok
  refine Triple.tryBind hshell (fun _ => ?_) (fun e => ?_) fun e s _ h hok => by cases hok
  · exact triple_pure (fun s s' h hr hok => lasts_backedUp.stable s s' (h hok) hr) fun s _ h _ => h rfl
  · exact fun s s' h hr hok => by cases hok

theorem runShell_spares {command : Command} (h : (Op.sh command).Spares) : (runShell command).run.All Op.Spares :=
  all_bind (all_ask h) fun _ => trivial

theorem validate_spares (conf : PathBuf) : (validate cfg conf).run.All Op.Spares := by
  unfold validate
  split
  · exact trivial
  · exact runShell_spares trivial

theorem reload_spares : (reload cfg).run.All Op.Spares := by
  unfold reload
  split
  · exact trivial
  · exact runShell_spares trivial

/-- Sequencing when the error of the first part needs no argument. -/
theorem triple_snapshot_then {α β : Type} {x : Fallible β} {f : β → Fallible α} {A B : Moment → Prop}
    (hx : (snapshotProtocol cfg reqs).Triple machine.machine t A x.run fun r s => r.toBool → B s)
    (hf : ∀ b, (snapshotProtocol cfg reqs).Triple machine.machine t B (f b).run
      fun r s => r.toBool → BackedUp s.log t) :
    (snapshotProtocol cfg reqs).Triple machine.machine t A (x >>= f).run
      fun r s => r.toBool → BackedUp s.log t := by
  refine Triple.tryBind (B := fun r s => r.toBool → B s) hx (fun b => ?_) (fun e => ?_) fun e s _ _ h => by cases h
  · exact (hf b).conseq (fun s h => h rfl) fun _ _ _ => id
  · exact fun s s' _ _ h => by cases h

theorem triple_snapshot_pipeline (hreq : reqs[t]? = some .reconcile) (x : ControlPlaneState) :
    (snapshotProtocol cfg reqs).Triple machine.machine t (Clean t) (pipeline cfg x).run
      fun r s => r.toBool → BackedUp s.log t := by
  have spares : ∀ {α : Type} {p : Fallible α}, p.run.All Op.Spares → ∀ {A : Moment → Prop}, Lasts t A →
      (snapshotProtocol cfg reqs).Triple machine.machine t A p.run fun r s => r.toBool → A s :=
    fun hp _ hA => (triple_spares hp hA).post fun _ _ _ h _ => h
  have hrender := (@renderToStaging_onTrees cfg x).mono fun _ => Op.OnTrees.spares
  have hcommit := (@commitStaging_onTrees cfg).mono fun _ => Op.OnTrees.spares
  refine triple_snapshot_then (spares hrender lasts_clean) fun rendered => ?_
  refine triple_snapshot_then (spares (validate_spares _) lasts_clean) fun _ => ?_
  refine triple_snapshot_then (triple_snapshot_backup hreq) fun _ => ?_
  refine triple_snapshot_then (spares hcommit lasts_backedUp) fun _ => ?_
  refine triple_snapshot_then (spares reload_spares lasts_backedUp) fun _ => ?_
  exact triple_pure lasts_backedUp.stable fun _ _ h _ => h

theorem performs_snapshot_inSync (rev : UInt64) (hash : String) :
    (snapshotProtocol cfg reqs).Performs machine.machine t (fun s => BackedUp s.log t) (.updateStatus (.inSync rev hash))
      fun _ _ => True := by
  refine performs_snapshot fun s r s' c hs hinv hexec hlog => ⟨hinv.cons hlog rfl ?_ fun u hu => ?_, trivial⟩
  · have hnow : s'.now = _ := (Prod.mk.inj (Option.some.inj hexec)).2.symm
    rw [hnow]
  · cases hu
    exact hs

theorem triple_snapshot_runPipeline (hreq : reqs[t]? = some .reconcile) (x : ControlPlaneState) :
    (snapshotProtocol cfg reqs).Triple machine.machine t (Clean t) (runPipeline cfg x).run fun _ _ => True := by
  refine triple_ask (o := .updateStatus .applying) (B := fun _ => Clean t) lasts_clean.stable
    (fun _ => lasts_clean.stable) (performs_spares (o := .updateStatus .applying) trivial lasts_clean) fun _ => ?_
  refine triple_lift (triple_snapshot_pipeline hreq x) fun r => ?_
  cases r with
  | ok hash =>
    have hmark := Triple.perform (lasts_backedUp.stable : (snapshotProtocol cfg reqs).Stable t _)
      (fun _ => lasts_true.stable) (performs_snapshot_inSync x.revision hash)
    refine (hmark.bind fun _ => .pure lasts_true.stable fun _ _ _ => trivial).conseq (fun s h => h rfl) fun _ _ _ => id
  | error err =>
    refine Triple.conseq (triple_spares ?_ lasts_true) (fun _ _ => trivial) fun _ _ _ => id
    exact all_bind (all_ask (o := .updateStatus (.degraded err.toString)) trivial) fun _ => trivial

theorem triple_snapshot_reconcile (hreq : reqs[t]? = some .reconcile) :
    (snapshotProtocol cfg reqs).Triple machine.machine t (Clean t) (reconcileOnce cfg) fun _ _ => True := by
  have spares : ∀ {α : Type} {p : Code α}, p.All Op.Spares →
      (snapshotProtocol cfg reqs).Triple machine.machine t (Clean t) p fun _ => Clean t :=
    fun hp => triple_spares hp lasts_clean
  refine (spares (.perform (o := Op.lockApply) trivial)).bind fun _ => Triple.bind (B := fun _ _ => True) ?_ fun _ => ?_
  · refine triple_lift (spares (.perform (o := Op.readState) trivial)) fun x => ?_
    refine triple_lift (spares (.perform (o := Op.readStatus) trivial)) fun status => ?_
    refine Triple.tryBind (spares (hashRuntime_onTrees.mono fun _ => Op.OnTrees.spares)) (fun hash => ?_)
      (fun _ => lasts_clean.stable) fun _ _ _ _ => trivial
    split
    · exact triple_pure lasts_clean.stable fun _ _ _ => trivial
    · refine Triple.tryBind (spares (all_whenever (all_ask (o := .updateStatus (.outOfSync _)) trivial)))
        (fun _ => triple_snapshot_runPipeline hreq x) (fun _ => lasts_clean.stable) fun _ _ _ _ => trivial
  · refine (triple_spares (.perform (o := Op.unlockApply) trivial) lasts_true).bind fun _ => ?_
    exact .pure lasts_true.stable fun _ _ _ => trivial

theorem putState_spares (serde : Serde) (expected : UInt64) (draft : ControlPlaneState) :
    (putState serde expected draft).All Op.Spares := by
  have hwrite : ∀ x, (writeStateFile serde x).run.All Op.Spares := fun x =>
    all_bind (all_check _) fun _ => all_bind (all_attempt (.perform trivial)) fun _ => all_attempt (.perform trivial)
  refine .bind (.perform trivial) fun current => .bind ?_ fun _ => .bind (.perform trivial) fun _ => trivial
  unfold putStateLocked
  split
  · exact trivial
  · split
    · exact trivial
    · refine all_bind (all_ask trivial) fun _ => all_bind (all_check _) fun _ => all_bind (hwrite _) fun _ => ?_
      exact all_bind (all_ask trivial) fun _ => all_bind (all_ask trivial) fun _ => trivial

theorem triple_snapshot_request (serde : Serde) {req : Request} (hreq : reqs[t]? = some req) :
    (snapshotProtocol cfg reqs).Triple machine.machine t (Clean t) (req.code cfg serde) fun _ _ => True := by
  have spares : ∀ {p : Code Response}, p.All Op.Spares →
      (snapshotProtocol cfg reqs).Triple machine.machine t (Clean t) p fun _ _ => True :=
    fun hp => (triple_spares hp lasts_clean).post fun _ _ _ _ => trivial
  cases req with
  | getState | getStatus | externalEdit | finishJob => exact spares (.bind (.perform trivial) fun _ => trivial)
  | putState expected draft => exact spares (.bind (putState_spares serde expected draft) fun _ => trivial)
  | reconcile =>
    refine (triple_snapshot_reconcile hreq).bind fun _ => ?_
    exact .pure lasts_true.stable fun _ _ _ => trivial

theorem snapshot_ready (serde : Serde) (w : World) :
    Ready (snapshotProtocol cfg reqs) machine.machine (fun _ _ _ => True) (start cfg serde w reqs) := by
  have hinit : SnapshotInv cfg reqs ⟨w, []⟩ :=
    ⟨fun h => absurd h List.not_mem_nil, fun h => absurd h List.not_mem_nil, fun h => absurd h List.not_mem_nil⟩
  refine ⟨hinit, fun t q hq => ?_⟩
  obtain ⟨req, hreq, rfl⟩ := Option.map_eq_some_iff.1 hq
  exact triple_snapshot_request serde hreq _ fun a ha => by cases ha

end Run

/-! ### Every apply has its own archive -/

/-- Every apply that has succeeded has an archive of its own in the backups directory: it has made it, nobody
else has written to it, and it is as it was made. -/
def SnapshotsKept (cfg : DaemonConfig) (s : Moment) : Prop :=
  ∀ t ∈ applies s.log, ∃ name text pre post a,
    .did t (.sh (.tar text (cfg.backupsDir.join name))) (.ok .success) pre post ∈ s.log ∧
    (∀ u, u ≠ t → (u, cfg.backupsDir.join name) ∉ tars s.log) ∧
    post.disk.archives (cfg.backupsDir.join name) = some a ∧ s.now.disk.archives (cfg.backupsDir.join name) = some a

/-- No two reconciles have read the clock in the same second; `backup` is where a reconcile reads it. -/
def SecondsApart (reqs : List Request) (log : Log) : Prop :=
  ∀ t u n m, t ≠ u → reqs[t]? = some .reconcile → reqs[u]? = some .reconcile → (t, n) ∈ clockReads log →
    (u, m) ∈ clockReads log → n / 1000000000 ≠ m / 1000000000

/-- As long as no two backups fall into one second, every successful apply keeps its archive. -/
theorem snapshots_kept (cfg : DaemonConfig) (serde : Serde) (w : World) (reqs : List Request)
    {p : Pool Op.Res Moment Response} (hp : (start cfg serde w reqs).Reach machine.machine p)
    (hapart : SecondsApart reqs p.shared.log) : SnapshotsKept cfg p.shared := by
  have hinv : SnapshotInv cfg reqs p.shared := ((snapshot_ready serde w).reach hp).1
  intro t ht
  obtain ⟨text, archive, pre, post, he⟩ := hinv.backed ht
  have hmem : (t, archive) ∈ tars p.shared.log := List.mem_filterMap.2 ⟨_, he, rfl⟩
  obtain ⟨hreq, n, hn, rfl⟩ := hinv.named hmem
  -- two threads with one archive have read the clock in one second
  have hown : ∀ u, u ≠ t → (u, snapshotArchive cfg n) ∉ tars p.shared.log := by
    intro u hu hm
    obtain ⟨hreq', m, hm', harch⟩ := hinv.named hm
    exact hapart t u n m (Ne.symm hu) hreq hreq' hn hm' (snapshotArchive_inj harch)
  refine ⟨snapshotId n ++ ".tar.gz", text, pre, post, ?_⟩
  rcases hinv.kept he with ⟨a, hpost, hnow⟩ | ⟨u, hu, hm⟩
  · exact ⟨a, he, hown, hpost, hnow⟩
  · exact absurd hm (hown u hu)

/-- An apply, a `put_state` and another apply, the last at time `later`. -/
def twoApplies (later : DateTime) : List (Turn Choice) :=
  turns 0 22 ++ turns 1 7 ++ List.replicate 25 (.op 2 ⟨later, none, 0⟩)

def twoReconciles : List Request := [.reconcile, .putState 0 sampleDraft, .reconcile]

/-- What of a history the samples look at. -/
def archived (log : Log) : List Nat × List (Nat × PathBuf) × List (Nat × DateTime) :=
  (applies log, tars log, clockReads log)

theorem snapshots_kept_two : ∃ p, (start .defaults sampleSerde sampleWorld twoReconciles).Reach machine.machine p ∧
    applies p.shared.log = [2, 0] ∧ SnapshotsKept .defaults p.shared := by
  have hrun : (machine.schedule (twoApplies 1000000000) (start .defaults sampleSerde sampleWorld twoReconciles)).map
      (fun p => archived p.shared.log) = some ([2, 0],
        [(2, "/var/lib/nginx-admin/backups/19700101000001.tar.gz"),
          (0, "/var/lib/nginx-admin/backups/19700101000000.tar.gz")], [(2, 1000000000), (1, 0), (0, 0)]) := by
    decide +kernel
  obtain ⟨p, hp, hlog⟩ := Option.map_eq_some_iff.1 hrun
  simp only [archived, Prod.mk.injEq] at hlog
  obtain ⟨happlies, -, hclock⟩ := hlog
  refine ⟨p, Exec.reach_of_schedule hp, happlies, snapshots_kept _ _ _ _ (Exec.reach_of_schedule hp) ?_⟩
  intro t u n m htu ht hu hn hm
  rw [hclock] at hn hm
  -- thread 1 is not a reconcile
  have hput : twoReconciles[1]? ≠ some .reconcile := by rintro ⟨⟩
  simp only [List.mem_cons, Prod.mk.injEq, List.not_mem_nil, or_false] at hn hm
  rcases hn with ⟨rfl, rfl⟩ | ⟨rfl, rfl⟩ | ⟨rfl, rfl⟩ <;> rcases hm with ⟨rfl, rfl⟩ | ⟨rfl, rfl⟩ | ⟨rfl, rfl⟩ <;>
    first | exact absurd rfl htu | exact absurd ht hput | exact absurd hu hput | decide

/-- The clock that a schedule shows, operation by operation. -/
def clockOfTurn : Turn Choice → Option DateTime
  | .op _ c => some c.now
  | .drop _ => none

/-- Two applies within a nanosecond, with a `put_state` between them: the second replaces the archive of the
first. -/
theorem snapshot_replaced : ∃ p, ((twoApplies 1).filterMap clockOfTurn).Pairwise (· ≤ ·) ∧
    machine.schedule (twoApplies 1) (start .defaults sampleSerde sampleWorld twoReconciles) = some p ∧
    applies p.shared.log = [2, 0] ∧ ¬ SnapshotsKept .defaults p.shared := by
  have hrun : (machine.schedule (twoApplies 1) (start .defaults sampleSerde sampleWorld twoReconciles)).map
      (fun p => archived p.shared.log) = some ([2, 0],
        [(2, "/var/lib/nginx-admin/backups/19700101000000.tar.gz"),
          (0, "/var/lib/nginx-admin/backups/19700101000000.tar.gz")], [(2, 1), (1, 0), (0, 0)]) := by
    decide +kernel
  obtain ⟨p, hp, hlog⟩ := Option.map_eq_some_iff.1 hrun
  simp only [archived, Prod.mk.injEq] at hlog
  obtain ⟨happlies, htars, -⟩ := hlog
  refine ⟨p, by decide, hp, happlies, fun hkept => ?_⟩
  obtain ⟨name, text, pre, post, a, he, hown, -⟩ := hkept 0 (by rw [happlies]; decide)
  have hmem : (0, DaemonConfig.defaults.backupsDir.join name) ∈ tars p.shared.log := List.mem_filterMap.2 ⟨_, he, rfl⟩
  -- the archive of thread 0 is that of thread 2
  have hother := hown 2 (by decide)
  rw [htars] at hmem hother
  simp only [List.mem_cons, Prod.mk.injEq, List.not_mem_nil, or_false] at hmem hother
  rcases hmem with ⟨h, -⟩ | ⟨-, h⟩
  · cases h
  · exact hother (.inl ⟨trivial, h⟩)

end NginxAdmin.Daemon
