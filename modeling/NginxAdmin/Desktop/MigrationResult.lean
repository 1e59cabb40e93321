import NginxAdmin.Desktop.Migration

/-!
# What a migration leaves (`secrets/migrateDesktopSecrets.ts`)

A process that completes the migrating path has stored one record and cleaned one file. The spread `{ ...existing,
...envSecrets }` takes over the properties of `envSecrets` that are undefined, so a stored credential that the environment
does not set is lost (`nothingErased_iff`). The cleaned file sets every other variable as before, and a secret one only if a
line has it in disguise and the process does not have it yet (`cleanup_removes_secrets_iff`).
-/

namespace NginxAdmin.Desktop.Migration

variable {α β : Type} {w w' : World}

/-- The script, run alone where the existence tests are right, returns `a`. -/
abbrev Succeeds (script : Script α) (w : World) (a : α) (w' : World) : Prop :=
  script.run.Eval sighted.machine 0 w (.ok a) w'

theorem succeeds_pure {a b : α} : Succeeds (pure a) w b w' ↔ b = a ∧ w' = w := by
  show (Except.ok b : Except Thrown α) = .ok a ∧ w' = w ↔ _
  rw [Except.ok.injEq]

theorem not_succeeds_throw {e : Thrown} {a : α} : ¬ Succeeds (throw e) w a w' := by
  rintro ⟨h, -⟩
  cases h

/-- A script that returns has returned from its first part. -/
theorem eval_bind_ok {M : Machine Op.Res World} {t : Nat} {x : Script β} {f : β → Script α} {a : α}
    (h : (x >>= f).run.Eval M t w (.ok a) w') :
    ∃ b w₁, x.run.Eval M t w (.ok b) w₁ ∧ (f b).run.Eval M t w₁ (.ok a) w' := by
  rw [ExceptT.run_bind, Prog.eval_bind] at h
  obtain ⟨r, w₁, hx, hrest⟩ := h
  cases r with
  | error e => cases hrest.1
  | ok b => exact ⟨b, w₁, hx, hrest⟩

theorem Succeeds.bind {x : Script β} {f : β → Script α} {a : α} (h : Succeeds (x >>= f) w a w') :
    ∃ b w₁, Succeeds x w b w₁ ∧ Succeeds (f b) w₁ a w' :=
  eval_bind_ok h

/-- No operation of a script that returns has failed. -/
theorem Succeeds.perform {o : Op} {f : o.Value → Script α} {a : α} (h : Succeeds (perform o >>= f) w a w') :
    ∃ v w₁, o.exec w = (.ok v, w₁) ∧ Succeeds (f v) w₁ a w' := by
  obtain ⟨v, w₁, hstep, hrest⟩ := h.bind
  rcases step_sighted (Prog.eval_perform.1 hstep) with hexec | ⟨-, hfail, -⟩
  · exact ⟨v, w₁, hexec, hrest⟩
  · cases hfail

/-- An operation that always succeeds. -/
theorem Succeeds.perform_ok {o : Op} {f : o.Value → Script α} {a : α} {v : o.Value} {w₁ : World}
    (h : Succeeds (Migration.perform o >>= f) w a w') (hexec : o.exec w = (.ok v, w₁)) : Succeeds (f v) w₁ a w' := by
  obtain ⟨v', w₂, hexec', hrest⟩ := h.perform
  rw [hexec] at hexec'
  cases hexec'
  exact hrest

theorem Succeeds.readFile {path : String} {f : String → Script α} {a : α}
    (h : Succeeds (Migration.perform (.readFileSync path) >>= f) w a w') :
    ∃ text, w.disk.files path = some (.file text) ∧ Succeeds (f text) w a w' := by
  obtain ⟨text, w₁, hexec, hrest⟩ := h.perform
  simp only [Op.exec, Migration.readFile, Prod.mk.injEq] at hexec
  obtain ⟨hread, rfl⟩ := hexec
  split at hread
  next t ht =>
    cases hread
    exact ⟨_, ht, hrest⟩
  next => cases hread

/-- Collecting only reads. -/
theorem succeeds_collectEnvSecrets {secrets : HostSecrets} (h : Succeeds Script.collectEnvSecrets w secrets w') :
    collectEnvSecrets w.disk.files w.env = .ok secrets ∧ w' = w := by
  obtain ⟨⟨rfl, hresult | ⟨-, e, he⟩⟩, -⟩ := (reads_collectEnvSecrets (fun _ => True) trivial).eval rfl trivial h
  · exact ⟨hresult.symm, rfl⟩
  · cases he

/-- Cleaning changes no secret, and a file that is there holds the cleaned text afterwards. -/
theorem succeeds_cleanupEnvFile {envPath : Option String} {b : Bool} (h : Succeeds (cleanupEnvFile envPath) w b w') :
    w'.disk.secrets = w.disk.secrets ∧ ∀ path content, envPath = some path → path ≠ "" →
      w.disk.files path = some (.file content) → w'.disk.files path = some (.file (EnvFile.withoutSecrets content)) := by
  cases envPath with
  | none =>
    obtain ⟨-, rfl⟩ := succeeds_pure.1 h
    exact ⟨rfl, fun _ _ hpath => by cases hpath⟩
  | some envPath =>
    simp only [cleanupEnvFile] at h
    split at h
    next hempty =>
      obtain ⟨-, rfl⟩ := succeeds_pure.1 h
      refine ⟨rfl, fun path _ hpath hne => ?_⟩
      cases hpath
      exact absurd hempty hne
    next =>
      replace h := h.perform_ok rfl
      split at h
      next =>
        obtain ⟨text, htext, h⟩ := h.readFile
        split at h
        next hsame =>
          obtain ⟨-, rfl⟩ := succeeds_pure.1 h
          refine ⟨rfl, fun path content hpath _ hfile => ?_⟩
          cases hpath
          obtain rfl : text = content := by simpa [htext] using hfile
          rw [hsame, htext]
        next =>
          replace h := h.perform_ok rfl
          obtain ⟨-, rfl⟩ := succeeds_pure.1 h
          refine ⟨rfl, fun path content hpath _ hfile => ?_⟩
          cases hpath
          obtain rfl : text = content := by simpa [htext] using hfile
          simp
      next hmissing =>
        obtain ⟨-, rfl⟩ := succeeds_pure.1 h
        refine ⟨rfl, fun path content hpath _ hfile => ?_⟩
        cases hpath
        simp [hfile] at hmissing

/-- What `loadDesktopEnv` sets from the cleaned text: no secret variable, and every other one as from the original. -/
def RemovesSecrets (P : ProcessEnv) (env : Env) (content text : String) : Prop :=
  (∀ name, name ∉ secretEnvKeys → EnvFile.loadContent P text env name = EnvFile.loadContent P content env name) ∧
    ∀ name ∈ secretEnvKeys, EnvFile.loadContent P text env name = env name

theorem cleanup_removes_secrets_iff {P : ProcessEnv} {envPath content : String} {cleaned : Bool} (hpath : envPath ≠ "")
    (hfile : w.disk.files envPath = some (.file content)) (h : Succeeds (cleanupEnvFile (some envPath)) w cleaned w') :
    ∃ text, w'.disk.files envPath = some (.file text) ∧ ∀ env : Env, RemovesSecrets P env content text ↔
      ∀ line ∈ EnvFile.lines content, ∀ name, EnvFile.Disguises P line name → env name ≠ none := by
  refine ⟨_, (succeeds_cleanupEnvFile h).2 envPath content rfl hpath hfile, fun env => ?_⟩
  constructor
  · rintro ⟨-, hsecret⟩ line hline name hd
    exact (EnvFile.loadContent_withoutSecrets_iff hd.1).1 (hsecret name hd.1) line hline hd
  · intro hset
    refine ⟨fun name hname => EnvFile.loadContent_withoutSecrets_of_not_mem content env hname, fun name hname => ?_⟩
    exact (EnvFile.loadContent_withoutSecrets_iff hname).2 fun line hline => hset line hline name

theorem cleanup_removes_secrets_exampleDisk : ∃ (w' : World) (text : String),
    w'.disk.files "/app/.env" = some (.file text) ∧
      RemovesSecrets .posix (fun _ => none) "# SSH\r\nSSH_PASSWORD = 'p'\nSSH_HOST=h" text := by
  have hrun : Succeeds (cleanupEnvFile (some "/app/.env")) ⟨fun _ => none, exampleDisk⟩ true _ :=
    Prog.eval_of_run (fun c (_ : c ∈ [true, true, true]) => trivial) rfl
  obtain ⟨text, hfile, hload⟩ := cleanup_removes_secrets_iff (P := .posix) (by decide) rfl hrun
  exact ⟨_, text, hfile, (hload fun _ => none).2 fun line hline name hd =>
    absurd hd (undisguised_exampleDisk _ _ rfl rfl line hline name)⟩

/-- The cleaned file still has the password, under a key that ends at its NUL for `process.env`. -/
theorem disguise_remains : ∃ (w' : World) (text : String),
    Succeeds (cleanupEnvFile (some "/app/.env")) ⟨fun _ => none, disguisedDisk⟩ true w' ∧
      w'.disk.files "/app/.env" = some (.file text) ∧
      EnvFile.loadContent .posix text (fun _ => none) "SSH_PASSWORD" = some "pw" ∧
      ¬ RemovesSecrets .posix (fun _ => none) "SSH_USERNAME=u\nSSH_PASSWORD\x00x=pw" text := by
  have hrun : Succeeds (cleanupEnvFile (some "/app/.env")) ⟨fun _ => none, disguisedDisk⟩ true _ :=
    Prog.eval_of_run (fun c (_ : c ∈ [true, true, true]) => trivial) rfl
  have hload : EnvFile.loadContent .posix "SSH_PASSWORD\x00x=pw" (fun _ => none) "SSH_PASSWORD" = some "pw" := by
    decide +kernel
  refine ⟨_, "SSH_PASSWORD\x00x=pw", hrun, by decide +kernel, hload, fun h => ?_⟩
  rw [h.2 "SSH_PASSWORD" (by decide)] at hload
  cases hload

/-- The value that the environment has for the key, if it is not empty. -/
def provided (w : World) (key : SecretKey) : Option String :=
  match collectEnvSecrets w.disk.files w.env with
  | .ok secrets => filled (secrets.get key)
  | .error _ => none

/-- The value that is stored for the key. -/
def stored (w : World) (hostId : String) (key : SecretKey) : Option String :=
  filled ((w.disk.secrets hostId).bind fun record => record.get key)

/-- The record has the values of the environment, and those that were stored before for the other keys. -/
def NothingErased (hostId : String) (w w' : World) : Prop :=
  ∃ record, w'.disk.secrets hostId = some record ∧ ∀ key, record.get key = (provided w key).or (stored w hostId key)

variable {envPath : Option String} {hostId : String} {result : DesktopSecretsMigrationResult}

theorem get_merge {existing : Option HostSecrets} {envSecrets : HostSecrets} {key : SecretKey} (hkey : key ≠ .token) :
    (merge existing envSecrets).get key = envSecrets.get key := by
  cases key with
  | token => exact absurd rfl hkey
  | _ => rfl

/-- What a process has stored that took the migrating path. -/
theorem succeeds_migration (h : Succeeds (runDesktopSecretsMigration envPath hostId) w result w')
    (hmigrated : result.migrated = true) : w.disk.secrets markerHostId = none ∧
      ∃ envSecrets, collectEnvSecrets w.disk.files w.env = .ok envSecrets ∧
        w'.disk.secrets = Function.update
          (Function.update w.disk.secrets hostId (some (normalizeHostSecrets (merge (w.disk.secrets hostId) envSecrets))))
          markerHostId (some (normalizeHostSecrets completed)) := by
  unfold runDesktopSecretsMigration at h
  replace h := (h.perform_ok rfl).perform_ok rfl
  split at h
  next =>
    obtain ⟨rfl, -⟩ := succeeds_pure.1 (h.perform_ok rfl)
    cases hmigrated
  next hmarker =>
    refine ⟨by simpa using hmarker, ?_⟩
    obtain ⟨envSecrets, w₁, hcollect, h⟩ := h.bind
    obtain ⟨hcollect, rfl⟩ := succeeds_collectEnvSecrets hcollect
    refine ⟨envSecrets, hcollect, ?_⟩
    split at h
    next =>
      replace h := (h.perform_ok rfl).perform_ok rfl
      split at h
      next =>
        obtain ⟨cleaned, w₂, hclean, h⟩ := h.bind
        have hsecrets := (succeeds_cleanupEnvFile hclean).1
        obtain ⟨-, rfl⟩ := succeeds_pure.1 ((h.perform_ok rfl).perform_ok rfl)
        show Function.update w₂.disk.secrets _ _ = _
        rw [hsecrets]
      next => exact absurd h not_succeeds_throw
    next =>
      obtain ⟨rfl, -⟩ := succeeds_pure.1 ((h.perform_ok rfl).perform_ok rfl)
      cases hmigrated

/-- Nothing is erased just when the environment sets every key but the token that the record has. -/
theorem nothingErased_iff (h : Succeeds (runDesktopSecretsMigration envPath hostId) w result w')
    (hmigrated : result.migrated = true) : NothingErased hostId w w' ↔
      hostId ≠ markerHostId ∧ ∀ key, key ≠ .token → provided w key ≠ none ∨ stored w hostId key = none := by
  obtain ⟨hmarker, envSecrets, hcollect, hsecrets⟩ := succeeds_migration h hmigrated
  have hprovided : ∀ key, provided w key = filled (envSecrets.get key) := fun key => by rw [provided, hcollect]
  have htoken : provided w .token = none := by rw [hprovided, HostSecrets.get, token_of_collect hcollect]; rfl
  unfold NothingErased
  by_cases hid : hostId = markerHostId
  · -- the marker has replaced the record
    subst hid
    rw [hsecrets, Function.update_self]
    simp only [ne_eq, not_true_eq_false, false_and, iff_false, not_exists, not_and, Option.some.injEq, forall_eq']
    intro hall
    have hget := hall .token
    rw [htoken, stored, hmarker] at hget
    cases hget
  · rw [hsecrets, Function.update_of_ne hid, Function.update_self]
    simp only [Option.some.injEq, exists_eq_left', ne_eq, hid, not_false_eq_true, true_and]
    refine forall_congr' fun key => ?_
    rw [get_normalizeHostSecrets]
    by_cases hkey : key = .token
    · subst hkey
      have hget : filled ((merge (w.disk.secrets hostId) envSecrets).get .token) = stored w hostId .token := rfl
      simp [hget, htoken]
    · rw [get_merge hkey, ← hprovided]
      cases hvalue : provided w key with
      | none => simp [hkey, eq_comm]
      | some value => simp

/-- A user name in the environment, and a record for the host `default`. -/
def userNameWorld (record : HostSecrets) : World where
  env key := if key = "SSH_USERNAME" then some "new" else none
  disk := ⟨fun _ => none, fun id => if id = "default" then some record else none⟩

theorem succeeds_userNameWorld (record : HostSecrets) : ∃ w', Succeeds (runDesktopSecretsMigration none "default")
    (userNameWorld record) ⟨"default", true, false, some (normalizeHostSecrets ⟨some "new", none, record.token, none, none⟩)⟩ w' :=
  ⟨_, Prog.eval_of_run (fun c (_ : c ∈ List.replicate 11 true) => trivial) rfl⟩

theorem nothingErased_userNameWorld : ∃ result w', Succeeds (runDesktopSecretsMigration none "default")
    (userNameWorld ⟨some "old", none, some "t", none, none⟩) result w' ∧
    NothingErased "default" (userNameWorld ⟨some "old", none, some "t", none, none⟩) w' := by
  obtain ⟨w', hrun⟩ := succeeds_userNameWorld ⟨some "old", none, some "t", none, none⟩
  refine ⟨_, w', hrun, (nothingErased_iff hrun rfl).2 ⟨by decide, fun key hkey => ?_⟩⟩
  cases key with
  | username => exact .inl (by decide)
  | token => exact absurd rfl hkey
  | _ => exact .inr rfl

/-- The stored password is gone when the environment has a user name only. -/
theorem password_erased : ∃ result w', Succeeds (runDesktopSecretsMigration none "default")
    (userNameWorld ⟨some "old", some "p", none, none, none⟩) result w' ∧ result.migrated = true ∧
    ¬ NothingErased "default" (userNameWorld ⟨some "old", some "p", none, none, none⟩) w' := by
  obtain ⟨w', hrun⟩ := succeeds_userNameWorld ⟨some "old", some "p", none, none, none⟩
  refine ⟨_, w', hrun, rfl, ?_⟩
  rintro ⟨record, hrecord, hall⟩
  obtain ⟨-, envSecrets, hcollect, hsecrets⟩ := succeeds_migration hrun rfl
  cases hcollect
  rw [hsecrets, Function.update_of_ne (by decide), Function.update_self, Option.some.injEq] at hrecord
  have hpassword := hall .password
  rw [← hrecord] at hpassword
  exact absurd hpassword (by decide)

end NginxAdmin.Desktop.Migration
