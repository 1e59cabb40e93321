import NginxAdmin.Daemon.Apply
import NginxAdmin.Lib.Triple

/-!
# The daemon as a process (`main.rs`)

Any number of daemon processes, each of which runs `run` and may be killed before any of its operations; the kernel
then releases its lock and forgets its listener, and the socket file stays. `instance_lock`: at most one process is
between `acquire_instance_lock` and its end, and the socket file is its own while it serves; without failures of the
system a process fails only because another one has the lock, and only a killed process leaves a socket file behind.
-/

namespace NginxAdmin.Daemon.Instance

open Protocol

inductive Op where
  | createLockDir
  | openLockFile
  /-- `try_lock_exclusive`. -/
  | tryLock
  /-- `StateStore::load_or_init`. -/
  | loadState
  | socketExists
  | removeSocket
  | bind
  | setPermissions
  /-- Whether `getent group` succeeds. -/
  | getent (group : String)
  | sh (command : String)
  /-- `serve_unix` starts to accept. -/
  | serve
  /-- `serve_unix` ends with a signal, or with an error of `accept`. -/
  | serveEnds
  /-- The guard of the lock is dropped. -/
  | unlock

/-- Errors are given by their text. -/
abbrev Op.Res : Op → Type
  | socketExists | getent _ => Bool
  | serve | unlock => Unit
  | _ => Except String Unit

structure World where
  /-- The process that holds the lock on `/run/nginx-admind.lock`. -/
  lock : Option Nat
  /-- Who has made the socket file. -/
  socket : Option Nat
  /-- The processes that accept connections. -/
  serving : List Nat
  killed : List Nat

structure Choice where
  /-- The operation fails. -/
  fault : Option String
  answer : Bool

def Choice.outcome (c : Choice) : Except String Unit :=
  match c.fault with
  | some e => .error e
  | none => .ok ()

/-- What process `t` does with the operation `o`; none of them has to wait. -/
def Op.exec (t : Nat) (o : Op) (c : Choice) (w : World) : o.Res × World :=
  match o with
  | .createLockDir | .openLockFile | .loadState | .setPermissions | .sh _ => (c.outcome, w)
  | .tryLock =>
    match c.fault, w.lock with
    | some e, _ => (.error e, w)
    | none, some _ => (.error "Resource temporarily unavailable (os error 11)", w)
    | none, none => (.ok (), { w with lock := some t })
  | .socketExists => (c.fault.isNone && w.socket.isSome, w)
  | .removeSocket =>
    match c.fault, w.socket with
    | some e, _ => (.error e, w)
    | none, none => (.error "No such file or directory (os error 2)", w)
    | none, some _ => (.ok (), { w with socket := none })
  | .bind =>
    match c.fault, w.socket with
    | some e, _ => (.error e, w)
    | none, some _ => (.error "Address already in use (os error 98)", w)
    | none, none => (.ok (), { w with socket := some t })
  | .getent _ => (c.answer, w)
  | .serve => ((), { w with serving := t :: w.serving })
  | .serveEnds => (c.outcome, { w with serving := w.serving.filter (· != t) })
  | .unlock => ((), { w with lock := none })

/-- Process `t` is killed. -/
def World.kill (t : Nat) (w : World) : World where
  lock := if w.lock = some t then none else w.lock
  socket := w.socket
  serving := w.serving.filter (· != t)
  killed := t :: w.killed

def machine : Exec Op.Res World Choice where
  step t o c w := some (o.exec t c w)
  cancel t _ w := some (w.kill t)

abbrev Code (α : Type) := Prog Op.Res α

/-- `Result<T, Box<dyn Error>>`. -/
abbrev Fallible (α : Type) := ExceptT String (Prog Op.Res) α

abbrev perform (o : Op) : Code o.Res := Prog.perform o

def lockError (err : String) : String :=
  "failed to acquire instance lock at /run/nginx-admind.lock: " ++ err ++
    " (another nginx-admind instance may be running)"

/-- `acquire_instance_lock`. -/
def acquireInstanceLock : Fallible Unit := do
  ExceptT.mk (perform .createLockDir)
  ExceptT.mk (perform .openLockFile)
  ExceptT.mk (do return (← perform .tryLock).mapError lockError)

/-- `prepare_unix_socket_path`. -/
def prepareUnixSocketPath : Fallible Unit := do
  if (← ExceptT.lift (perform .socketExists)) then ExceptT.mk (perform .removeSocket)
  else pure ()

/-- `group_exists`. -/
def groupExists (group : String) : Code Bool :=
  if group = "" then pure false else perform (.getent group)

/-- `configure_unix_socket_permissions`; a failure of `chgrp` is only logged. -/
def configureUnixSocketPermissions (path : PathBuf) (socketGroup : String) : Fallible Unit := do
  ExceptT.mk (perform .setPermissions)
  if (← ExceptT.lift (groupExists socketGroup)) then do
    let _ ← ExceptT.lift (perform (.sh ("chgrp " ++ socketGroup ++ " " ++ shellEscape path)))
  else pure ()

/-- `cleanup_unix_socket_path`; a failure is only logged. -/
def cleanupUnixSocketPath : Code Unit := do
  if (← perform .socketExists) then do
    let _ ← perform .removeSocket
  else pure ()

/-- `run`, once it has the lock. -/
def runLocked (path : PathBuf) (socketGroup : String) : Fallible Unit := do
  ExceptT.mk (perform .loadState)
  prepareUnixSocketPath
  ExceptT.mk (perform .bind)
  match (← ExceptT.lift (configureUnixSocketPermissions path socketGroup).run) with
  | .error err => do
    ExceptT.lift cleanupUnixSocketPath
    throw err
  | .ok () => do
    ExceptT.lift (perform .serve)
    let serveResult ← ExceptT.lift (perform .serveEnds)
    ExceptT.lift cleanupUnixSocketPath
    ExceptT.mk (pure serveResult)

/-- `run`. The guard of the lock lives until the function returns. -/
def run (path : PathBuf) (socketGroup : String) : Code (Except String Unit) := do
  match (← acquireInstanceLock.run) with
  | .error err => pure (.error err)
  | .ok () => do
    let result ← (runLocked path socketGroup).run
    perform .unlock
    pure result

/-- Every process number stands for a daemon that may be started. -/
def processes (path : PathBuf) (socketGroup : String) (w : World) : Pool Op.Res World (Except String Unit) where
  shared := w
  threads _ := some (run path socketGroup)

/-- `clean`: no operation fails. -/
structure Inv (clean : Prop) (w : World) : Prop where
  serving : ∀ t ∈ w.serving, w.lock = some t ∧ w.socket = some t
  left : clean → ∀ t, w.socket = some t → t ∈ w.killed ∨ w.lock = some t

structure Rely (t : Nat) (w w' : World) : Prop where
  lock : w'.lock = some t ↔ w.lock = some t
  serving : t ∈ w'.serving ↔ t ∈ w.serving
  held : w.lock = some t → w'.socket = w.socket
  mine : w'.socket = some t → w.socket = some t

theorem Rely.trans {t : Nat} {w w' w'' : World} (h : Rely t w w') (h' : Rely t w' w'') : Rely t w w'' where
  lock := h'.lock.trans h.lock
  serving := h'.serving.trans h.serving
  held hl := (h'.held (h.lock.2 hl)).trans (h.held hl)
  mine hs := h.mine (h'.mine hs)

def protocol (clean : Prop) : Protocol World where
  rely := Rely
  inv := Inv clean
  refl _ _ := ⟨Iff.rfl, Iff.rfl, fun _ => rfl, id⟩
  trans := Rely.trans

/-- The machine in which operations fail only if `clean` does not hold. -/
def machineIf (clean : Prop) : Machine Op.Res World := machine.machineOn fun c => clean → c.fault = none

/-- What a step of process `t` owes to the others. -/
structure Owed (t : Nat) (w w' : World) : Prop where
  lock : ∀ u, u ≠ t → (w'.lock = some u ↔ w.lock = some u)
  serving : ∀ u, u ≠ t → (u ∈ w'.serving ↔ u ∈ w.serving)
  socket : w'.socket = w.socket ∨ w.lock = some t ∧ (w'.socket = none ∨ w'.socket = some t)

section Threads

variable {clean : Prop} {t : Nat} {w w' : World}

theorem Owed.rely {u : Nat} (h : Owed t w w') (hu : u ≠ t) : Rely u w w' where
  lock := h.lock u hu
  serving := h.serving u hu
  held hl := by
    rcases h.socket with hsame | ⟨hlock, -⟩
    · exact hsame
    · exact absurd (Option.some.inj (hl.symm.trans hlock)) hu
  mine hs := by
    rcases h.socket with hsame | ⟨-, hnone | hmine⟩
    · exact hsame ▸ hs
    · rw [hnone] at hs
      cases hs
    · exact absurd (Option.some.inj (hs.symm.trans hmine)) hu

theorem Owed.refl (t : Nat) (w : World) : Owed t w w := ⟨fun _ _ => Iff.rfl, fun _ _ => Iff.rfl, .inl rfl⟩

theorem owed_kill (t : Nat) (w : World) : Owed t w (w.kill t) where
  lock u hu := by
    by_cases hl : w.lock = some t
    · simp [World.kill, hl, hu.symm]
    · simp [World.kill, hl]
  serving u hu := by simp [World.kill, hu]
  socket := .inl rfl

theorem Inv.kill (h : Inv clean w) (t : Nat) : Inv clean (w.kill t) where
  serving u hu := by
    obtain ⟨hmem, hne⟩ := List.mem_filter.1 hu
    obtain ⟨hlock, hsocket⟩ := h.serving u hmem
    have hut : u ≠ t := fun he => by simp [he] at hne
    exact ⟨((owed_kill t w).lock u hut).2 hlock, hsocket⟩
  left hclean u hu := by
    by_cases hut : u = t
    · exact .inl (hut ▸ List.mem_cons_self)
    · rcases h.left hclean u hu with hkilled | hlock
      · exact .inl (List.mem_cons_of_mem _ hkilled)
      · exact .inr (((owed_kill t w).lock u hut).2 hlock)

theorem performs {o : Op} {A : World → Prop} {Q : o.Res → World → Prop}
    (h : ∀ w c, A w → Inv clean w → (clean → c.fault = none) → Owed t w (o.exec t c w).2 ∧
      Inv clean (o.exec t c w).2 ∧ Q (o.exec t c w).1 (o.exec t c w).2) :
    (protocol clean).Performs (machineIf clean) t A o Q := by
  intro w hA hinv
  refine ⟨fun r w' hs => ?_, fun w' hs => ?_⟩
  · obtain ⟨c, hc, hexec⟩ := hs
    obtain ⟨rfl, rfl⟩ := Prod.mk.inj (Option.some.inj hexec)
    obtain ⟨howed, hinv', hQ⟩ := h w c hA hinv hc
    exact ⟨⟨hinv', fun u hu => howed.rely hu⟩, hQ⟩
  · obtain rfl := Option.some.inj hs
    exact ⟨hinv.kill t, fun u hu => (owed_kill t w).rely hu⟩

/-- An operation that is not about the lock and the socket. -/
theorem performs_idle {o : Op} {A : World → Prop} (ho : ∀ c w, (o.exec t c w).2 = w) :
    (protocol clean).Performs (machineIf clean) t A o fun _ => A := by
  refine performs fun w c hA hinv _ => ?_
  rw [ho]
  exact ⟨.refl t w, hinv, hA⟩

/-- It does not have the lock. -/
structure Outside (t : Nat) (w : World) : Prop where
  lock : w.lock ≠ some t
  serving : t ∉ w.serving
  socket : w.socket ≠ some t

/-- It has the lock, does not serve, and `S` holds of the socket file. -/
structure Inside (S : Option Nat → Prop) (t : Nat) (w : World) : Prop where
  lock : w.lock = some t
  serving : t ∉ w.serving
  socket : S w.socket

structure Serves (t : Nat) (w : World) : Prop where
  lock : w.lock = some t
  serving : t ∈ w.serving
  socket : w.socket = some t

theorem stable_outside : (protocol clean).Stable t (Outside t) :=
  fun _ _ h hr => ⟨mt hr.lock.1 h.lock, mt hr.serving.1 h.serving, mt hr.mine h.socket⟩

theorem stable_inside {S : Option Nat → Prop} : (protocol clean).Stable t (Inside S t) :=
  fun _ _ h hr => ⟨hr.lock.2 h.lock, mt hr.serving.1 h.serving, (hr.held h.lock).symm ▸ h.socket⟩

theorem stable_serves : (protocol clean).Stable t (Serves t) :=
  fun _ _ h hr => ⟨hr.lock.2 h.lock, hr.serving.2 h.serving, (hr.held h.lock).trans h.socket⟩

/-- After a step that may fail: it has not failed if nothing fails. -/
def After (clean : Prop) (S : Option Nat → Prop) (t : Nat) : Except String Unit → World → Prop
  | .ok _ => Inside S t
  | .error _ => fun w => ¬ clean ∧ Inside (fun _ => True) t w

theorem stable_after {S : Option Nat → Prop} (r : Except String Unit) : (protocol clean).Stable t (After clean S t r) := by
  cases r with
  | ok _ => exact stable_inside
  | error _ => exact fun w w' h hr => ⟨h.1, stable_inside w w' h.2 hr⟩

theorem Inside.imp {S S' : Option Nat → Prop} (h : Inside S t w) (hS : ∀ o, S o → S' o) : Inside S' t w :=
  ⟨h.lock, h.serving, hS _ h.socket⟩

theorem not_clean {c : Choice} {e : String} (hc : clean → c.fault = none) (hf : c.fault = some e) : ¬ clean := by
  intro hclean
  rw [hc hclean] at hf
  cases hf

theorem after_outcome {S : Option Nat → Prop} {c : Choice} (hc : clean → c.fault = none) (h : Inside S t w) :
    After clean S t c.outcome w := by
  unfold Choice.outcome
  cases hf : c.fault with
  | none => exact h
  | some e => exact ⟨not_clean hc hf, h.imp fun _ _ => trivial⟩

/-- The holder of the lock may make or remove the socket file while it does not serve. -/
theorem Inside.setSocket {S S' : Option Nat → Prop} (h : Inside S t w) (hinv : Inv clean w) {o : Option Nat}
    (ho : o = none ∨ o = some t) (hS' : S' o) :
    Owed t w { w with socket := o } ∧ Inv clean { w with socket := o } ∧ Inside S' t { w with socket := o } := by
  refine ⟨⟨fun _ _ => Iff.rfl, fun _ _ => Iff.rfl, .inr ⟨h.lock, ho⟩⟩, ⟨fun u hu => ?_, fun _ u hu => ?_⟩, h.lock,
    h.serving, hS'⟩
  · have hlock := (hinv.serving u hu).1
    obtain rfl := Option.some.inj (h.lock.symm.trans hlock)
    exact absurd hu h.serving
  · obtain rfl : o = some u := hu
    rcases ho with hnone | hmine
    · cases hnone
    · exact .inr (hmine.symm ▸ h.lock)

/-! ### The steps of `run` -/

/-- After `try_lock_exclusive`: an error without a failure means that the lock is taken. -/
def Tried (clean : Prop) (t : Nat) : Except String Unit → World → Prop
  | .ok _ => Inside (· ≠ some t) t
  | .error e => fun w => Outside t w ∧ (clean → e = "Resource temporarily unavailable (os error 11)")

theorem stable_tried (r : Except String Unit) : (protocol clean).Stable t (Tried clean t r) := by
  cases r with
  | ok _ => exact stable_inside
  | error e => exact fun w w' h hr => ⟨stable_outside w w' h.1 hr, h.2⟩

theorem performs_tryLock : (protocol clean).Performs (machineIf clean) t (Outside t) .tryLock (Tried clean t) := by
  refine performs fun w c hA hinv hc => ?_
  simp only [Op.exec]
  split
  · rename_i e hf
    exact ⟨.refl t w, hinv, hA, fun hclean => absurd hclean (not_clean hc hf)⟩
  · exact ⟨.refl t w, hinv, hA, fun _ => rfl⟩
  · rename_i _ hfree
    have hnobody : ∀ u, w.lock ≠ some u := fun u he => by rw [hfree] at he; cases he
    refine ⟨⟨fun u hu => ?_, fun _ _ => Iff.rfl, .inl rfl⟩, ⟨fun u hu => ?_, fun hclean u hu => ?_⟩, rfl, hA.serving,
      hA.socket⟩
    · exact iff_of_false (fun he => hu (Option.some.inj he).symm) (hnobody u)
    · exact absurd (hinv.serving u hu).1 (hnobody u)
    · exact .inl ((hinv.left hclean u hu).resolve_right (hnobody u))

/-- After `acquire_instance_lock`. -/
def Acquired (clean : Prop) (t : Nat) : Except String Unit → World → Prop
  | .ok _ => Inside (· ≠ some t) t
  | .error e => fun _ => clean → e = lockError "Resource temporarily unavailable (os error 11)"

theorem triple_acquireInstanceLock : (protocol clean).Triple (machineIf clean) t (Outside t) acquireInstanceLock.run
    (Acquired clean t) := by
  have hstable : ∀ r : Except String Unit, (protocol clean).Stable t fun w => Outside t w ∧ (clean → r = .ok ()) :=
    fun r w w' h hr => ⟨stable_outside w w' h.1 hr, h.2⟩
  have hdir : (protocol clean).Triple (machineIf clean) t (Outside t) (perform .createLockDir)
      fun r w => Outside t w ∧ (clean → r = .ok ()) := by
    refine Triple.perform stable_outside hstable (performs fun w c hA hinv hc => ⟨.refl t w, hinv, hA, fun hclean => ?_⟩)
    simp only [Op.exec, Choice.outcome, hc hclean]
  have hopen : (protocol clean).Triple (machineIf clean) t (Outside t) (perform .openLockFile)
      fun r w => Outside t w ∧ (clean → r = .ok ()) := by
    refine Triple.perform stable_outside hstable (performs fun w c hA hinv hc => ⟨.refl t w, hinv, hA, fun hclean => ?_⟩)
    simp only [Op.exec, Choice.outcome, hc hclean]
  have hlock : (protocol clean).Triple (machineIf clean) t (Outside t)
      (ExceptT.mk (do return (← perform .tryLock).mapError lockError) : Fallible Unit).run (Acquired clean t) := by
    refine (Triple.perform stable_outside stable_tried performs_tryLock).bind fun r => ?_
    refine .pure (stable_tried r) fun w _ h => ?_
    cases r with
    | ok _ => exact h
    | error e => exact fun hclean => congrArg lockError (h.2 hclean)
  refine Triple.tryBind hdir (fun _ => ?_) (fun e => hstable (.error e)) fun e w _ h hclean => by cases h.2 hclean
  refine Triple.conseq (A := Outside t) ?_ (fun _ h => h.1) fun _ _ _ h => h
  refine Triple.tryBind hopen (fun _ => ?_) (fun e => hstable (.error e)) fun e w _ h hclean => by cases h.2 hclean
  exact hlock.conseq (fun _ h => h.1) fun _ _ _ h => h

/-- `?`: what follows a step that may fail. -/
theorem triple_step {p q : Fallible Unit} {A : World → Prop} {S S' : Option Nat → Prop}
    (hp : (protocol clean).Triple (machineIf clean) t A p.run (After clean S t))
    (hq : (protocol clean).Triple (machineIf clean) t (Inside S t) q.run (After clean S' t)) :
    (protocol clean).Triple (machineIf clean) t A (p >>= fun _ => q).run (After clean S' t) :=
  Triple.tryBind hp (fun _ => hq) (fun e => stable_after (.error e)) fun _ _ _ h => h

theorem triple_prepareUnixSocketPath : (protocol clean).Triple (machineIf clean) t (Inside (· ≠ some t) t)
    prepareUnixSocketPath.run (After clean (fun o => o ≠ some t ∧ (clean → o = none)) t) := by
  unfold prepareUnixSocketPath
  rw [ExceptT.run_bind_lift]
  refine (Triple.perform (Q := fun b => Inside (fun o => o ≠ some t ∧ (clean → b = o.isSome)) t) stable_inside
    (fun _ => stable_inside) (performs fun w c hA hinv hc => ?_)).bind fun b => ?_
  · refine ⟨.refl t w, hinv, hA.lock, hA.serving, hA.socket, fun hclean => ?_⟩
    simp only [Op.exec, hc hclean, Option.isNone_none, Bool.true_and]
  cases b with
  | false =>
    refine .pure stable_inside fun w _ h => h.imp fun o ho => ⟨ho.1, fun hclean => ?_⟩
    exact Option.isSome_eq_false_iff.1 (ho.2 hclean).symm |> Option.isNone_iff_eq_none.1
  | true =>
    refine Triple.perform stable_inside stable_after (performs fun w c hA hinv hc => ?_)
    simp only [Op.exec]
    split
    · rename_i e hf
      exact ⟨.refl t w, hinv, not_clean hc hf, hA.imp fun _ _ => trivial⟩
    · rename_i _ hnone
      refine ⟨.refl t w, hinv, fun hclean => ?_, hA.imp fun _ _ => trivial⟩
      have hsome := hA.socket.2 hclean
      rw [hnone] at hsome
      cases hsome
    · exact hA.setSocket hinv (.inl rfl) ⟨(Option.some_ne_none t).symm, fun _ => rfl⟩

theorem performs_bind : (protocol clean).Performs (machineIf clean) t
    (Inside (fun o => o ≠ some t ∧ (clean → o = none)) t) .bind (After clean (· = some t) t) := by
  refine performs fun w c hA hinv hc => ?_
  simp only [Op.exec]
  split
  · rename_i e hf
    exact ⟨.refl t w, hinv, not_clean hc hf, hA.imp fun _ _ => trivial⟩
  · rename_i _ u hsome
    refine ⟨.refl t w, hinv, fun hclean => ?_, hA.imp fun _ _ => trivial⟩
    have hnone := hA.socket.2 hclean
    rw [hsome] at hnone
    cases hnone
  · exact hA.setSocket hinv (.inr rfl) rfl

theorem triple_configure (path : PathBuf) (socketGroup : String) : (protocol clean).Triple (machineIf clean) t
    (Inside (· = some t) t) (configureUnixSocketPermissions path socketGroup).run (After clean (· = some t) t) := by
  have hset : (protocol clean).Triple (machineIf clean) t (Inside (· = some t) t) (perform .setPermissions)
      (After clean (· = some t) t) :=
    Triple.perform stable_inside stable_after (performs fun w c hA hinv hc => ⟨.refl t w, hinv, after_outcome hc hA⟩)
  have hgroup : (protocol clean).Triple (machineIf clean) t (Inside (· = some t) t) (groupExists socketGroup)
      fun _ => Inside (· = some t) t := by
    unfold groupExists
    split
    · exact .pure stable_inside fun _ _ h => h
    · exact Triple.perform stable_inside (fun _ => stable_inside) (performs_idle fun _ _ => rfl)
  refine triple_step hset ?_
  rw [ExceptT.run_bind_lift]
  refine hgroup.bind fun b => ?_
  cases b with
  | false => exact .pure stable_inside fun _ _ h => h
  | true =>
    refine (Triple.perform stable_inside (fun _ => stable_inside) (performs_idle fun _ _ => rfl)).bind fun _ => ?_
    exact .pure stable_inside fun _ _ h => h

theorem triple_cleanup : (protocol clean).Triple (machineIf clean) t (Inside (fun o => clean → o = some t) t)
    cleanupUnixSocketPath fun _ => Inside (fun o => clean → o ≠ some t) t := by
  refine (Triple.perform (Q := fun b => Inside (fun o => clean → o = some t ∧ b = true) t) stable_inside
    (fun _ => stable_inside) (performs fun w c hA hinv hc => ?_)).bind fun b => ?_
  · refine ⟨.refl t w, hinv, hA.lock, hA.serving, fun hclean => ⟨hA.socket hclean, ?_⟩⟩
    simp only [Op.exec, hc hclean, hA.socket hclean, Option.isNone_none, Option.isSome_some, Bool.true_and]
  cases b with
  | false => exact .pure stable_inside fun w _ h => h.imp fun o ho hclean => by cases (ho hclean).2
  | true =>
    refine (Triple.perform (Q := fun _ => Inside (fun o => clean → o ≠ some t) t) stable_inside (fun _ => stable_inside)
      (performs fun w c hA hinv hc => ?_)).bind fun _ => .pure stable_inside fun _ _ h => h
    simp only [Op.exec]
    split
    · rename_i e hf
      exact ⟨.refl t w, hinv, hA.imp fun _ _ hclean => absurd hclean (not_clean hc hf)⟩
    · rename_i _ hnone
      refine ⟨.refl t w, hinv, hA.lock, hA.serving, fun _ => ?_⟩
      rw [hnone]
      exact (Option.some_ne_none t).symm
    · exact hA.setSocket hinv (.inl rfl) fun _ => (Option.some_ne_none t).symm

theorem performs_serve : (protocol clean).Performs (machineIf clean) t (Inside (· = some t) t) .serve fun _ => Serves t := by
  refine performs fun w c hA hinv _ => ?_
  refine ⟨⟨fun _ _ => Iff.rfl, fun u hu => ?_, .inl rfl⟩, ⟨fun u hu => ?_, hinv.left⟩, hA.lock, List.mem_cons_self, hA.socket⟩
  · exact List.mem_cons.trans (or_iff_right hu)
  · rcases List.mem_cons.1 hu with rfl | hu
    · exact ⟨hA.lock, hA.socket⟩
    · exact hinv.serving u hu

theorem performs_serveEnds : (protocol clean).Performs (machineIf clean) t (Serves t) .serveEnds
    fun r w => Inside (· = some t) t w ∧ (clean → r = .ok ()) := by
  refine performs fun w c hA hinv hc => ?_
  refine ⟨⟨fun _ _ => Iff.rfl, fun u hu => by simp [Op.exec, hu], .inl rfl⟩, ⟨fun u hu => ?_, hinv.left⟩,
    ⟨hA.lock, by simp [Op.exec], hA.socket⟩, fun hclean => ?_⟩
  · exact hinv.serving u (List.mem_filter.1 hu).1
  · simp only [Op.exec, Choice.outcome, hc hclean]

theorem performs_unlock : (protocol clean).Performs (machineIf clean) t (Inside (fun o => clean → o ≠ some t) t) .unlock
    fun _ _ => True := by
  refine performs fun w c hA hinv _ => ?_
  have alone : ∀ u, w.lock = some u → u = t := fun u hu => Option.some.inj (hu.symm.trans hA.lock)
  refine ⟨⟨fun u hu => ?_, fun _ _ => Iff.rfl, .inl rfl⟩, ⟨fun u hu => ?_, fun hclean u hu => .inl ?_⟩, trivial⟩
  · exact iff_of_false (Option.some_ne_none u).symm fun he => hu (alone u he)
  · obtain rfl := alone u (hinv.serving u hu).1
    exact absurd hu hA.serving
  · refine (hinv.left hclean u hu).resolve_right fun hlock => ?_
    obtain rfl := alone u hlock
    exact hA.socket hclean hu

theorem triple_runLocked (path : PathBuf) (socketGroup : String) : (protocol clean).Triple (machineIf clean) t
    (Inside (· ≠ some t) t) (runLocked path socketGroup).run (After clean (fun o => clean → o ≠ some t) t) := by
  have hload : (protocol clean).Triple (machineIf clean) t (Inside (· ≠ some t) t) (perform .loadState)
      (After clean (· ≠ some t) t) :=
    Triple.perform stable_inside stable_after (performs fun w c hA hinv hc => ⟨.refl t w, hinv, after_outcome hc hA⟩)
  refine triple_step hload (triple_step triple_prepareUnixSocketPath ?_)
  refine triple_step (Triple.perform stable_inside stable_after performs_bind) ?_
  rw [ExceptT.run_bind_lift]
  refine (triple_configure path socketGroup).bind fun r => ?_
  cases r with
  | error err =>
    rw [ExceptT.run_bind_lift]
    rintro w ⟨hdirty, h⟩
    have hopen : Inside (fun o => clean → o = some t) t w := h.imp fun _ _ hclean => absurd hclean hdirty
    refine (triple_cleanup.bind fun _ => .pure stable_inside fun w _ h => ?_) w hopen
    exact ⟨hdirty, h.imp fun _ _ => trivial⟩
  | ok _ =>
    have hends : ∀ r : Except String Unit, (protocol clean).Stable t fun w => Inside (· = some t) t w ∧ (clean → r = .ok ()) :=
      fun r w w' h hr => ⟨stable_inside w w' h.1 hr, h.2⟩
    rw [ExceptT.run_bind_lift]
    refine (Triple.perform stable_inside (fun _ => stable_serves) performs_serve).bind fun _ => ?_
    rw [ExceptT.run_bind_lift]
    refine (Triple.perform stable_serves hends performs_serveEnds).bind fun r => ?_
    rw [ExceptT.run_bind_lift]
    rintro w ⟨h, hr⟩
    refine (triple_cleanup.bind fun _ => .pure stable_inside fun w _ h => ?_) w (h.imp fun _ ho _ => ho)
    cases r with
    | ok _ => exact h
    | error e => exact ⟨fun hclean => (by cases hr hclean), h.imp fun _ _ => trivial⟩

/-- How a process ends when nothing fails. -/
def Returns (clean : Prop) (r : Except String Unit) : Prop :=
  clean → r = .ok () ∨ r = .error (lockError "Resource temporarily unavailable (os error 11)")

theorem triple_run (path : PathBuf) (socketGroup : String) : (protocol clean).Triple (machineIf clean) t (Outside t)
    (run path socketGroup) fun r _ => Returns clean r := by
  have hreturns : ∀ r, (protocol clean).Stable t fun _ => Returns clean r := fun _ _ _ h _ => h
  refine triple_acquireInstanceLock.bind fun r => ?_
  cases r with
  | error err => exact .pure (fun _ _ h _ => h) fun _ _ h hclean => .inr (congrArg Except.error (h hclean))
  | ok _ =>
    refine (triple_runLocked path socketGroup).bind fun r => ?_
    refine Triple.bind (B := fun _ _ => Returns clean r) (fun w h => ?_) fun _ => .pure (hreturns r) fun _ _ h => h
    have hr : Returns clean r := by
      cases r with
      | ok _ => exact fun _ => .inl rfl
      | error e => exact fun hclean => absurd hclean h.1
    have hinside : Inside (fun o => clean → o ≠ some t) t w := by
      cases r with
      | ok _ => exact h
      | error e => exact h.2.imp fun _ _ hclean => absurd hclean h.1
    have hunlock := Triple.perform stable_inside (fun _ _ _ _ _ => trivial) (@performs_unlock clean t)
    exact (hunlock.post fun _ _ _ _ => hr) w hinside

end Threads

/-- Nothing has been started since the system came up. -/
def fresh : World := ⟨none, none, [], []⟩

/-- Whatever processes are started and killed, one that serves has the lock and has made the socket file that is there.
When nothing fails, a process that returns has either served to its end or found the lock taken, and the socket file
belongs to the process that has the lock or was left by a killed one. -/
theorem instance_lock {path : PathBuf} {socketGroup : String} {clean : Prop} {p : Pool Op.Res World (Except String Unit)}
    (h : (processes path socketGroup fresh).Reach (machineIf clean) p) :
    (∀ t ∈ p.shared.serving, p.shared.lock = some t ∧ p.shared.socket = some t) ∧
    (clean → ∀ t r, p.threads t = some (.ret r) →
      r = .ok () ∨ r = .error (lockError "Resource temporarily unavailable (os error 11)")) ∧
    (clean → ∀ t, p.shared.socket = some t → t ∈ p.shared.killed ∨ p.shared.lock = some t) := by
  have hstart : Ready (protocol clean) (machineIf clean) (fun _ r _ => Returns clean r)
      (processes path socketGroup fresh) := by
    refine ⟨⟨fun t ht => (by cases ht), fun _ t ht => (by cases ht)⟩, fun t q hq => ?_⟩
    obtain rfl := Option.some.inj hq
    exact triple_run path socketGroup fresh ⟨fun hl => (by cases hl), List.not_mem_nil, fun hs => (by cases hs)⟩
  have hready := hstart.reach h
  exact ⟨hready.1.serving, fun hclean t r hr => hready.ret hr hclean, hready.1.left⟩

/-- `n` operations of process `t`, none of which fails; there is no socket group. -/
def steps (t n : Nat) : List (Turn Choice) := List.replicate n (.op t ⟨none, false⟩)

/-- Process 0 serves, process 1 finds the lock taken, process 0 is killed, and process 2 takes its place. -/
theorem instance_lock_restart : ∃ p, (processes "/run/nginx-admin.sock" "www-data" fresh).Reach (machineIf True) p ∧
    p.shared.serving = [2] ∧ p.shared.lock = some 2 ∧ p.shared.socket = some 2 ∧ p.shared.killed = [0] := by
  have hrun : (machine.schedule (steps 0 9 ++ steps 1 3 ++ [.drop 0] ++ steps 2 10)
      (processes "/run/nginx-admin.sock" "www-data" fresh)).map
      (fun p => (p.shared.serving, p.shared.killed)) = some ([2], [0]) := by
    decide +kernel
  obtain ⟨p, hp, hres⟩ := Option.map_eq_some_iff.1 hrun
  obtain ⟨hserving, hkilled⟩ := Prod.mk.inj hres
  have hok : ∀ t c, .op t c ∈ steps 0 9 ++ steps 1 3 ++ [.drop 0] ++ steps 2 10 → True → Choice.fault c = none := by
    intro t c hc _
    simp only [steps, List.mem_append, List.mem_replicate, List.mem_singleton, Turn.op.injEq, reduceCtorEq, or_false] at hc
    rcases hc with (⟨-, -, rfl⟩ | ⟨-, -, rfl⟩) | ⟨-, -, rfl⟩ <;> rfl
  have hreach : (processes "/run/nginx-admin.sock" "www-data" fresh).Reach (machineIf True) p :=
    Exec.reach_on_of_schedule hok hp
  obtain ⟨hlock, hsocket⟩ := (instance_lock hreach).1 2 (hserving ▸ List.mem_singleton_self 2)
  exact ⟨p, hreach, hserving, hlock, hsocket, hkilled⟩

end NginxAdmin.Daemon.Instance
