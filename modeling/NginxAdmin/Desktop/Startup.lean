import NginxAdmin.Desktop.BootstrapIpc
import NginxAdmin.Desktop.MigrationResult

/-!
# The start of the desktop app (`main.ts`)

`createSshRuntime` runs the migration of the credentials and builds the SSH executor of what it returns. The migration can
fail at any operation, and the app starts all the same. `startup_bare`: once it has started, the process has no secret
variable, and the executor has the stored credentials or none.
-/

namespace NginxAdmin.Desktop.Startup

open Migration

/-- The configuration of the `SSHExecutor`, and the rest of `SshRuntime`. -/
structure SshRuntime where
  host : String
  username : String
  port : Nat
  password : Option String
  privateKey : Option String
  passphrase : Option String
  cliPath : String
  hasAuth : Bool
  metadata : HostMetadata

/-- `parsePort`; the error is the text of what is thrown. -/
def parsePort (raw : Option String) (fallback : Nat) : Except String Nat :=
  match raw with
  | none | some "" => .ok fallback
  | some raw =>
    match Js.toNumber raw with
    | some parsed => if parsed.den = 1 ∧ 0 < parsed.num then .ok parsed.num.toNat else .error ("Invalid SSH_PORT value: " ++ raw)
    | none => .error ("Invalid SSH_PORT value: " ++ raw)

/-- The runtime of the credentials. Only secret variables change after `env` has been read. -/
def runtimeOf (env : Env) (port : Nat) (secrets : Option HostSecrets) : SshRuntime :=
  let host := (env "SSH_HOST").getD "127.0.0.1"
  { host := host
    username := (((secrets.bind HostSecrets.username).or (env "USER")).or (env "USERNAME")).getD "unknown"
    port := port
    password := secrets.bind HostSecrets.password
    privateKey := secrets.bind HostSecrets.privateKey
    passphrase := secrets.bind HostSecrets.passphrase
    cliPath := (env "NGINX_ADMIN_CLI_PATH").getD "/usr/local/bin/nginx-admin-cli"
    hasAuth := (filled (secrets.bind HostSecrets.password)).isSome || (filled (secrets.bind HostSecrets.privateKey)).isSome
    metadata :=
      { id := "default"
        name := (env "SSH_HOST_NAME").getD host
        host := host
        port := port
        description := env "SSH_HOST_DESCRIPTION"
        createdAt := none
        updatedAt := none
        checkedAt := none
        latencyMs := none
        status := some .unknown } }

/-- The credentials that `createSshRuntime` goes on with. -/
def obtainSecrets (envPath : Option String) : Prog Op.Res (Option HostSecrets) := do
  match (← (runDesktopSecretsMigration envPath "default").run) with
  | .ok migration => pure migration.secrets
  | .error _ => do
    -- the error is only logged
    let _ ← Prog.perform .clearSecretProcessEnv
    pure none

def createSshRuntime (env : Env) (envPath : Option String) : Prog Op.Res (Except String SshRuntime) :=
  match parsePort (env "SSH_PORT") 22 with
  | .error message => pure (.error message)
  | .ok port => do return .ok (runtimeOf env port (← obtainSecrets envPath))

/-- The operation writes the record of the host or the marker, or the file of the environment. -/
def Writes (envPath : Option String) (hostId : String) : Op → Prop
  | .set id _ => id = hostId ∨ id = markerHostId
  | .writeFileSync path _ => envPath = some path
  | _ => True

/-- The operation writes the file of the environment only. -/
def WritesFile (envPath : Option String) : Op → Prop
  | .set _ _ => False
  | .writeFileSync path _ => envPath = some path
  | _ => True

/-- Nothing else than that has changed, and of the environment only secret variables. -/
structure Frame (envPath : Option String) (hostId : String) (w w' : World) : Prop where
  env : ∀ key, key ∉ secretEnvKeys → w'.env key = w.env key
  secrets : ∀ id, id ≠ hostId → id ≠ markerHostId → w'.disk.secrets id = w.disk.secrets id
  files : ∀ path, envPath ≠ some path → w'.disk.files path = w.disk.files path

variable {envPath : Option String} {hostId : String} {w w₁ w' : World}

theorem Frame.refl (w : World) : Frame envPath hostId w w := ⟨fun _ _ => rfl, fun _ _ _ => rfl, fun _ _ => rfl⟩

theorem Frame.trans (h : Frame envPath hostId w w₁) (h' : Frame envPath hostId w₁ w') : Frame envPath hostId w w' :=
  ⟨fun k hk => (h'.env k hk).trans (h.env k hk), fun i hi hm => (h'.secrets i hi hm).trans (h.secrets i hi hm),
    fun p hp => (h'.files p hp).trans (h.files p hp)⟩

theorem WritesFile.writes {o : Op} (h : WritesFile envPath o) : Writes envPath hostId o := by
  cases o with
  | set id secrets => exact h.elim
  | _ => exact h

theorem secrets_exec {o : Op} (ho : WritesFile envPath o) (w : World) : (o.exec w).2.disk.secrets = w.disk.secrets := by
  cases o with
  | set id secrets => exact ho.elim
  | _ => rfl

theorem frame_exec {o : Op} (ho : Writes envPath hostId o) (w : World) : Frame envPath hostId w (o.exec w).2 := by
  cases o with
  | set id secrets =>
    refine ⟨fun _ _ => rfl, fun i hi hm => Function.update_of_ne ?_ .., fun _ _ => rfl⟩
    rintro rfl
    exact ho.elim hi hm
  | clearSecretProcessEnv => exact ⟨fun key hkey => if_neg hkey, fun _ _ _ => rfl, fun _ _ => rfl⟩
  | writeFileSync path text =>
    refine ⟨fun _ _ => rfl, fun _ _ _ => rfl, fun p hp => Function.update_of_ne ?_ ..⟩
    rintro rfl
    exact hp ho
  | get id => exact .refl w
  | getEnv key => exact .refl w
  | existsSync path => exact .refl w
  | readFileSync path => exact .refl w

theorem frame_step {o : Op} (ho : Writes envPath hostId o) {t : Nat} {r : o.Res} (h : machine.machine.step t o w r w') :
    Frame envPath hostId w w' := by
  rcases step_failing h with hexec | ⟨-, -, -, rfl⟩
  · have hframe := frame_exec ho w
    rwa [hexec] at hframe
  · exact .refl w'

theorem frame_eval {α : Type} {p : Prog Op.Res α} (hp : p.All (Writes envPath hostId)) {t : Nat} {a : α}
    (h : p.Eval machine.machine t w a w') : Frame envPath hostId w w' :=
  h.of_all hp (fun _ _ _ _ ho hI hstep => hI.trans (frame_step ho hstep)) (.refl w)

theorem secrets_eval {α : Type} {p : Prog Op.Res α} (hp : p.All (WritesFile envPath)) {t : Nat} {a : α}
    (h : p.Eval machine.machine t w a w') : w'.disk.secrets = w.disk.secrets := by
  refine h.of_all (I := fun w₁ => w₁.disk.secrets = w.disk.secrets) hp (fun o s r s' ho hs hstep => ?_) rfl
  rcases step_failing hstep with hexec | ⟨-, -, -, rfl⟩
  · have hsecrets := secrets_exec ho s
    rw [hexec] at hsecrets
    exact hsecrets.trans hs
  · exact hs

theorem all_perform {K : Op → Prop} {o : Op} (h : K o) : (perform o).run.All K := .perform h

theorem readPrivateKeyFromEnv_writes : Script.readPrivateKeyFromEnv.run.All (WritesFile envPath) := by
  have hget : ∀ key, (perform (.getEnv key)).run.All (WritesFile envPath) := fun key => all_perform (o := .getEnv key) trivial
  have hexists : ∀ path, (perform (.existsSync path)).run.All (WritesFile envPath) :=
    fun path => all_perform (o := .existsSync path) trivial
  have hread : ∀ path, (perform (.readFileSync path)).run.All (WritesFile envPath) :=
    fun path => all_perform (o := .readFileSync path) trivial
  unfold Script.readPrivateKeyFromEnv
  refine .tryBind (hget _) fun explicitPath => ?_
  split
  · refine .tryBind (hexists _) fun found => ?_
    split
    · exact .tryBind (hread _) fun _ => trivial
    · exact trivial
  refine .tryBind (hget _) fun legacyValue => ?_
  split
  · exact trivial
  refine .tryBind (hexists _) fun found => ?_
  split
  · exact .tryBind (hread _) fun _ => trivial
  · exact trivial

theorem collectEnvSecrets_writes : Script.collectEnvSecrets.run.All (WritesFile envPath) := by
  have hget : ∀ key, (perform (.getEnv key)).run.All (WritesFile envPath) := fun key => all_perform (o := .getEnv key) trivial
  exact .tryBind (hget _) fun _ => .tryBind (hget _) fun _ => .tryBind readPrivateKeyFromEnv_writes fun _ =>
    .tryBind (hget _) fun _ => trivial

theorem cleanupEnvFile_writes : (cleanupEnvFile envPath).run.All (WritesFile envPath) := by
  cases envPath with
  | none => exact trivial
  | some path =>
    simp only [cleanupEnvFile]
    split
    · exact trivial
    refine .tryBind (all_perform (o := .existsSync path) trivial) fun found => ?_
    split
    · refine .tryBind (all_perform (o := .readFileSync path) trivial) fun original => ?_
      split
      · exact trivial
      · exact .tryBind (all_perform (o := .writeFileSync path _) rfl) fun _ => trivial
    · exact trivial

theorem migration_writes : (runDesktopSecretsMigration envPath hostId).run.All (Writes envPath hostId) := by
  have hget : ∀ id, (perform (.get id)).run.All (Writes envPath hostId) := fun id => all_perform (o := .get id) trivial
  have hclear : (perform .clearSecretProcessEnv).run.All (Writes envPath hostId) :=
    all_perform (o := .clearSecretProcessEnv) trivial
  have hmark : (perform (.set markerHostId completed)).run.All (Writes envPath hostId) :=
    all_perform (o := .set markerHostId completed) (.inr rfl)
  unfold runDesktopSecretsMigration
  refine .tryBind (hget _) fun marker => .tryBind (hget _) fun existing => ?_
  split
  · exact .tryBind hclear fun _ => trivial
  refine .tryBind (collectEnvSecrets_writes.mono fun _ => WritesFile.writes) fun envSecrets => ?_
  split
  · refine .tryBind (all_perform (o := .set hostId _) (.inl rfl)) fun _ => .tryBind (hget _) fun verified => ?_
    split
    · exact .tryBind (cleanupEnvFile_writes.mono fun _ => WritesFile.writes) fun _ => .tryBind hclear fun _ => .tryBind hmark fun _ => trivial
    · exact trivial
  · exact .tryBind hmark fun _ => .tryBind hclear fun _ => trivial

/-! ### What a start leaves -/

theorem bare_cleared (env : Env) : Bare fun key => if key ∈ secretEnvKeys then none else env key := fun _ h => if_pos h

/-- An operation that throws when it fails has not failed when the script returns. -/
theorem perform_ok {α : Type} {o : Op} {f : o.Value → Script α} {a : α} {v : o.Value} {w₁ : World}
    (ho : o.isTest = false) (h : (perform o >>= f).run.Eval machine.machine 0 w (.ok a) w')
    (hexec : o.exec w = (.ok v, w₁)) : (f v).run.Eval machine.machine 0 w₁ (.ok a) w' := by
  obtain ⟨v', w₂, hstep, hrest⟩ := eval_bind_ok h
  rcases step_failing (Prog.eval_perform.1 hstep) with hexec' | ⟨-, -, hfail, -⟩
  · rw [hexec] at hexec'
    cases hexec'
    exact hrest
  · rw [failed_of_not_isTest ho] at hfail
    cases hfail

/-- A migration that returns gives the record that is stored, and leaves no secret variable. -/
theorem returns_bare {result : DesktopSecretsMigrationResult} (hne : hostId ≠ markerHostId)
    (h : (runDesktopSecretsMigration envPath hostId).run.Eval machine.machine 0 w (.ok result) w') :
    Bare w'.env ∧ result.secrets = w'.disk.secrets hostId := by
  unfold runDesktopSecretsMigration at h
  replace h := perform_ok rfl (perform_ok rfl h rfl) rfl
  split at h
  next =>
    obtain ⟨hresult, rfl⟩ := perform_ok rfl h rfl
    cases hresult
    exact ⟨bare_cleared _, rfl⟩
  next =>
    obtain ⟨envSecrets, w₁, hcollect, h⟩ := eval_bind_ok h
    have hreads : Script.collectEnvSecrets.run.All (WritesFile none) := collectEnvSecrets_writes
    have hsame := secrets_eval hreads hcollect
    split at h
    next =>
      replace h := perform_ok rfl (perform_ok rfl h rfl) rfl
      split at h
      next =>
        obtain ⟨cleaned, w₂, hclean, h⟩ := eval_bind_ok h
        obtain ⟨hresult, rfl⟩ := perform_ok rfl (perform_ok rfl h rfl) rfl
        cases hresult
        refine ⟨bare_cleared _, ?_⟩
        show _ = Function.update w₂.disk.secrets _ _ _
        rw [Function.update_of_ne hne, secrets_eval cleanupEnvFile_writes hclean]
      next => exact absurd h.1 (by simp)
    next =>
      obtain ⟨hresult, rfl⟩ := perform_ok rfl (perform_ok rfl h rfl) rfl
      cases hresult
      refine ⟨bare_cleared _, ?_⟩
      show _ = Function.update w₁.disk.secrets _ _ _
      rw [Function.update_of_ne hne, hsame]

theorem eval_obtainSecrets {secrets : Option HostSecrets}
    (h : (obtainSecrets envPath).Eval machine.machine 0 w secrets w') :
    Frame envPath "default" w w' ∧ Bare w'.env ∧ (secrets = w'.disk.secrets "default" ∨ secrets = none) := by
  unfold obtainSecrets at h
  obtain ⟨r, w₁, hmigration, h⟩ := Prog.eval_bind.1 h
  have hframe := frame_eval migration_writes hmigration
  cases r with
  | ok migration =>
    obtain ⟨rfl, rfl⟩ := h
    obtain ⟨hbare, hsecrets⟩ := returns_bare (by decide) hmigration
    exact ⟨hframe, hbare, .inl hsecrets⟩
  | error e =>
    obtain ⟨_, w₂, hstep, rfl, rfl⟩ := Prog.eval_bind.1 h
    have hclear := Prog.eval_perform.1 hstep
    refine ⟨hframe.trans (frame_step (o := .clearSecretProcessEnv) trivial hclear), ?_, .inr rfl⟩
    -- removing a variable cannot fail
    rcases step_failing hclear with hexec | ⟨-, hsafe, -⟩
    · obtain ⟨-, rfl⟩ := Prod.mk.inj hexec
      exact bare_cleared _
    · cases hsafe

theorem parsePort_error {raw : Option String} {fallback : Nat} {message : String}
    (h : parsePort raw fallback = .error message) : ∃ text, raw = some text ∧ message = "Invalid SSH_PORT value: " ++ text ∧
      text ≠ "" ∧ ∀ n : Nat, 0 < n → Js.toNumber text ≠ some (n : Rat) := by
  unfold parsePort at h
  split at h
  · cases h
  · cases h
  next text hne =>
    refine ⟨text, rfl, ?_, fun he => hne (by rw [he]), fun n hn hnumber => ?_⟩
    · split at h
      · split at h
        · cases h
        · exact (Except.error.inj h).symm
      · exact (Except.error.inj h).symm
    · have hvalid : ((n : Rat).den = 1 ∧ 0 < (n : Rat).num) := ⟨Rat.den_natCast n, by rw [Rat.num_natCast]; omega⟩
      simp only [hnumber] at h
      rw [if_pos hvalid] at h
      cases h

theorem parsePort_ok {raw : Option String} {fallback port : Nat} (hfallback : 0 < fallback)
    (h : parsePort raw fallback = .ok port) :
    0 < port ∧ ∀ text, raw = some text → text ≠ "" → Js.toNumber text = some (port : Rat) := by
  unfold parsePort at h
  split at h
  · exact ⟨Except.ok.inj h ▸ hfallback, fun text ht => by cases ht⟩
  · refine ⟨Except.ok.inj h ▸ hfallback, fun text ht hne => ?_⟩
    cases ht
    exact absurd rfl hne
  · split at h
    next parsed hnumber =>
      split at h
      next hvalid =>
        obtain rfl := Except.ok.inj h
        refine ⟨by omega, fun text ht _ => ?_⟩
        cases ht
        rw [hnumber, Option.some.injEq]
        have hnum : (parsed.num.toNat : Int) = parsed.num := Int.toNat_of_nonneg hvalid.2.le
        calc parsed = (parsed.num : Rat) := (Rat.den_eq_one_iff parsed).1 hvalid.1 |>.symm
          _ = ((parsed.num.toNat : Int) : Rat) := by rw [hnum]
          _ = (parsed.num.toNat : Rat) := Rat.intCast_natCast _
      · cases h
    · cases h

/-- The runtime has nothing of the secret variables. -/
theorem runtimeOf_congr {env env' : Env} (h : ∀ key, key ∉ secretEnvKeys → env' key = env key) (port : Nat)
    (secrets : Option HostSecrets) : runtimeOf env' port secrets = runtimeOf env port secrets := by
  simp only [runtimeOf, h "SSH_HOST" (by decide), h "USER" (by decide), h "USERNAME" (by decide),
    h "NGINX_ADMIN_CLI_PATH" (by decide), h "SSH_HOST_NAME" (by decide), h "SSH_HOST_DESCRIPTION" (by decide)]

/-- The start fails just when `SSH_PORT` is not a positive integer, before anything has changed. Otherwise the process has
no secret variable left, whatever has failed in the migration; it has changed no other variable, no other record and no
other file; and the executor has the stored credentials or none. -/
theorem startup_bare {r : Except String SshRuntime}
    (h : (createSshRuntime w.env envPath).Eval machine.machine 0 w r w') :
    (∀ message, r = .error message →
      w' = w ∧ ∃ raw, w.env "SSH_PORT" = some raw ∧ message = "Invalid SSH_PORT value: " ++ raw ∧ raw ≠ "" ∧
        ∀ n : Nat, 0 < n → Js.toNumber raw ≠ some (n : Rat)) ∧
    ∀ runtime, r = .ok runtime → 0 < runtime.port ∧
      (∀ raw, w.env "SSH_PORT" = some raw → raw ≠ "" → Js.toNumber raw = some (runtime.port : Rat)) ∧
      Bare w'.env ∧ Frame envPath "default" w w' ∧
      ∃ secrets, (secrets = w'.disk.secrets "default" ∨ secrets = none) ∧
        runtime = runtimeOf w'.env runtime.port secrets := by
  unfold createSshRuntime at h
  split at h
  next message hport =>
    obtain ⟨rfl, rfl⟩ := h
    refine ⟨fun _ hr => ?_, fun _ hr => by cases hr⟩
    obtain rfl := Except.error.inj hr
    exact ⟨rfl, parsePort_error hport⟩
  next port hport =>
    obtain ⟨secrets, w₁, hobtain, rfl, rfl⟩ := Prog.eval_bind.1 h
    obtain ⟨hframe, hbare, hsecrets⟩ := eval_obtainSecrets hobtain
    refine ⟨fun _ hr => by (cases hr), fun runtime hr => ?_⟩
    obtain rfl := Except.ok.inj hr
    obtain ⟨hpos, hnumber⟩ := parsePort_ok (by decide) hport
    exact ⟨hpos, hnumber, hbare, hframe, secrets, hsecrets, (runtimeOf_congr hframe.env port secrets).symm⟩

/-- The record cannot be written: the app starts without credentials, and the environment has lost them. -/
theorem startup_bare_locked : ∃ (runtime : SshRuntime) (w' : World),
    (createSshRuntime (userNameWorld .empty).env none).Eval machine.machine 0 (userNameWorld .empty) (.ok runtime) w' ∧
      runtime.hasAuth = false ∧ Bare w'.env ∧ 0 < runtime.port := by
  have hrun : (createSshRuntime (userNameWorld .empty).env none).Eval machine.machine 0 (userNameWorld .empty) _ _ :=
    Prog.eval_of_run (fun c (_ : c ∈ [true, true, true, true, true, true, true, false, true]) => trivial) rfl
  obtain ⟨hpos, -, hbare, -⟩ := (startup_bare hrun).2 _ rfl
  exact ⟨_, _, hrun, rfl, hbare, hpos⟩

end NginxAdmin.Desktop.Startup
