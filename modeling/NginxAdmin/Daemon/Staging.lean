import NginxAdmin.Daemon.Rules
import NginxAdmin.Daemon.DirOps

/-!
# The staging directory after `render_to_staging`

`triple_renderToStaging`: a render that succeeds leaves `renderTree` in the staging directory, unless the test of
that directory was wrong. Then the old entries stay, and the files are written over them (`renderOnto`). The hash
that is returned is that of the tree which is left; a render fails only when an operation is hit by a fault. The
result holds for every thread that has the staging directory for itself (`StagingFrame`): a thread that runs alone,
or one that holds the apply lock.
-/

namespace NginxAdmin.Daemon

open Protocol

/-- The files of the sorted servers, written over `tree`. -/
def writeServersOnto : List Server → Dir → Option Dir
  | [], tree => some tree
  | server :: rest, tree =>
    if server.enabled then
      (Dir.write ["servers", serverFileName server] (Text.utf8 (renderServer server)) tree).bind (writeServersOnto rest)
    else writeServersOnto rest tree

/-- The tree that `render_to_staging` leaves when the staging directory holds `base`; `none` if an entry of `base`
stands in the way. -/
def renderOnto (x : ControlPlaneState) (base : Dir) : Option Dir :=
  ((Dir.mkdirs ["servers"] base).bind (writeServersOnto (sortServers x.servers))).bind
    (Dir.write ["nginx.conf"] (Text.utf8 ((renderServers (sortServers x.servers) rootHeader []).1 ++ "\x7d\n")))

theorem write_servers {files : Dir} (hfiles : ∀ n d, files.lookup n ≠ some (.dir d)) (name : String)
    (content : Bytes) :
    Dir.write ["servers", name] content [("servers", .dir files)] =
      some [("servers", .dir (files.put name (.file content)))] := by
  have hwrite : Dir.write [name] content files = some (files.put name (.file content)) := by
    unfold Dir.write
    split
    · rename_i d hd
      exact absurd hd (hfiles name d)
    · rfl
  simp only [Dir.write.eq_3, List.lookup_cons_self, hwrite, Option.map_some, Dir.put, ↓reduceIte]

theorem lookup_put_file {files : Dir} (hfiles : ∀ n d, files.lookup n ≠ some (.dir d)) (name : String)
    (content : Bytes) (n : String) (d : List (String × Node)) :
    (files.put name (.file content)).lookup n ≠ some (.dir d) := by
  by_cases hn : n = name
  · rw [hn, Dir.lookup_put_self]; exact fun h => by cases h
  · rw [Dir.lookup_put_ne hn]; exact hfiles n d

theorem writeServersOnto_eq (servers : List Server) (root : String) {files : Dir}
    (hfiles : ∀ n d, files.lookup n ≠ some (.dir d)) :
    writeServersOnto servers [("servers", .dir files)] =
      some [("servers", .dir (renderServers servers root files).2)] := by
  induction servers generalizing root files with
  | nil => rfl
  | cons server rest ih =>
    unfold writeServersOnto renderServers
    split
    · rw [write_servers hfiles, Option.bind_some]
      exact ih _ (lookup_put_file hfiles _ _)
    · exact ih root hfiles

/-- Into an empty directory. -/
theorem renderOnto_nil (x : ControlPlaneState) : renderOnto x [] = some (renderTree x) := by
  have hempty : ∀ n d, List.lookup n ([] : Dir) ≠ some (.dir d) := fun n d h => by cases h
  rw [renderOnto, show Dir.mkdirs ["servers"] [] = some [("servers", .dir [])] from rfl, Option.bind_some,
    writeServersOnto_eq _ rootHeader hempty, Option.bind_some]
  rfl

/-- There is a file in it. -/
theorem collect_renderOnto {x : ControlPlaneState} {base tree : Dir} (h : renderOnto x base = some tree)
    (path : PathBuf) : Dir.collect path tree ≠ [] := by
  obtain ⟨d, -, hwrite⟩ := Option.bind_eq_some_iff.1 h
  unfold Dir.write at hwrite
  split at hwrite
  · cases hwrite
  · rw [← Option.some.inj hwrite]
    exact List.ne_nil_of_mem (Dir.mem_collect_put path "nginx.conf" _ d)

theorem fst_renderServers (servers : List Server) (root : String) (files files' : Dir) :
    (renderServers servers root files).1 = (renderServers servers root files').1 := by
  induction servers generalizing root files files' with
  | nil => rfl
  | cons server rest ih =>
    unfold renderServers
    split
    · exact ih _ _ _
    · exact ih _ _ _

/-- The operations on the staging directory that follow its test. -/
def Op.OnStaging (cfg : DaemonConfig) : Op → Prop
  | readTree l | createDirAll l _ | removeDirAll l | writeFile l _ _ => l = cfg.staging
  | _ => False

/-- On a staging directory `d`, operation `o` has answered `r` and left `d'`. -/
def Answers (cfg : DaemonConfig) (ok : Choice → Prop) (t : Nat) (o : Op) (d : Option Dir) (r : o.Res)
    (d' : Option Dir) (log : Log) : Prop :=
  ∃ c w w', ok c ∧ o.exec t c w = some (r, w') ∧ w.disk.dirs cfg.staging = d ∧ w'.disk.dirs cfg.staging = d' ∧
    .did t o r w w' ∈ log

/-- Some decision of the outside world is a fault. -/
def Faulty (ok : Choice → Prop) : Prop := ∃ c, ok c ∧ c.fault ≠ none

theorem not_faulty_faultless : ¬ Faulty Faultless := fun ⟨_, hc, hf⟩ => hf hc

/-- The staging directory is `d`, in the situation `F`. -/
def Staged (cfg : DaemonConfig) (F : Moment → Prop) (d : Option Dir) (s : Moment) : Prop :=
  F s ∧ s.now.disk.dirs cfg.staging = d

/-- Thread `t` has the staging directory for itself, in the situation `F`. -/
structure StagingFrame (cfg : DaemonConfig) (ok : Choice → Prop) (P : Protocol Moment)
    (M : Machine Op.Res Moment) (t : Nat) (F : Moment → Prop) : Prop where
  grows : ∀ s s', P.rely t s s' → s.log <:+ s'.log
  stable : ∀ d, P.Stable t (Staged cfg F d)
  performs : ∀ o : Op, o.OnStaging cfg → ∀ d, P.Performs M t (Staged cfg F d) o fun r s =>
    F s ∧ Answers cfg ok t o d r (s.now.disk.dirs cfg.staging) s.log

/-- What the test of the staging directory answers: the truth, or a wrong `false`, and then the situation is `D`. -/
def Looks (cfg : DaemonConfig) (ok : Choice → Prop) (P : Protocol Moment) (M : Machine Op.Res Moment) (t : Nat)
    (F D : Moment → Prop) : Prop :=
  ∀ d, P.Performs M t (Staged cfg F d) (.exists cfg.staging) fun r s =>
    r = d.isSome ∧ Staged cfg F d s ∨ r = false ∧ d ≠ none ∧ Faulty ok ∧ Staged cfg D d s

/-- `hash_directory` has read the staging directory, and found `tree`. -/
def Hashed (cfg : DaemonConfig) (log : Log) (tree : Dir) : Prop :=
  ∃ t pre post, .did t (.readTree cfg.staging) (.ok tree) pre post ∈ log

section Render

variable {cfg : DaemonConfig} {ok : Choice → Prop} {P : Protocol Moment} {M : Machine Op.Res Moment} {t : Nat}
  {F D : Moment → Prop}

theorem StagingFrame.stable_answers (h : StagingFrame cfg ok P M t F) (o : Op) (d : Option Dir) (r : o.Res) :
    P.Stable t fun s => F s ∧ Answers cfg ok t o d r (s.now.disk.dirs cfg.staging) s.log := by
  rintro s s' ⟨hF, c, w, w', hc, hexec, hd, hd', he⟩ hr
  obtain ⟨hF', hsame⟩ := h.stable _ s s' ⟨hF, rfl⟩ hr
  exact ⟨hF', c, w, w', hc, hexec, hd, hd'.trans hsame.symm, (h.grows s s' hr).subset he⟩

theorem StagingFrame.triple (h : StagingFrame cfg ok P M t F) (o : Op) (ho : o.OnStaging cfg) (d : Option Dir) :
    P.Triple M t (Staged cfg F d) (perform o)
      fun r s => F s ∧ Answers cfg ok t o d r (s.now.disk.dirs cfg.staging) s.log :=
  Triple.perform (h.stable d) (h.stable_answers o d) (h.performs o ho d)

section Rules

variable {α : Type} {Q : Except DaemonError α → Moment → Prop} (h : StagingFrame cfg ok P M t F)
include h

/-! One rule for each operation, followed by the rest of the function. -/

theorem StagingFrame.triple_removeDirAll {tree : Dir} {f : Unit → Fallible α}
    (hf : P.Triple M t (Staged cfg F none) (f ()).run Q) (hQ : ∀ e s, F s → Faulty ok → Q (.error e) s) :
    P.Triple M t (Staged cfg F (some tree)) (attempt (perform (.removeDirAll cfg.staging)) >>= f).run Q := by
  refine triple_attempt (h.triple (.removeDirAll cfg.staging) rfl _)
    (h.stable_answers (.removeDirAll cfg.staging) _) (fun _ => ?_) fun e s _ hs => ?_
  · rintro s ⟨hF, c, w, w', -, hexec, hd, hd', -⟩
    obtain ⟨-, ⟨-, hnone⟩ | ⟨e, he, -⟩⟩ := exec_removeDirAll hexec
    · exact hf s ⟨hF, hd' ▸ hnone⟩
    · cases he
  · obtain ⟨hF, c, w, w', hc, hexec, hd, -⟩ := hs
    obtain ⟨-, ⟨he, -⟩ | ⟨e, -, hfault | hnone⟩⟩ := exec_removeDirAll hexec
    · cases he
    · exact hQ _ s hF ⟨c, hc, hfault⟩
    · rw [hd] at hnone; cases hnone

theorem StagingFrame.triple_createDirAll {rel : List String} {d : Option Dir} {f : Unit → Fallible α}
    (hf : ∀ tree, Dir.mkdirs rel (d.getD []) = some tree → P.Triple M t (Staged cfg F (some tree)) (f ()).run Q)
    (hQ : ∀ e s, F s → Faulty ok ∨ Dir.mkdirs rel (d.getD []) = none → Q (.error e) s) :
    P.Triple M t (Staged cfg F d) (attempt (perform (.createDirAll cfg.staging rel)) >>= f).run Q := by
  refine triple_attempt (h.triple (.createDirAll cfg.staging rel) rfl _)
    (h.stable_answers (.createDirAll cfg.staging rel) _) (fun _ => ?_) fun e s _ hs => ?_
  · rintro s ⟨hF, c, w, w', -, hexec, rfl, hd', -⟩
    obtain ⟨-, ⟨tree, -, hm, ht⟩ | ⟨e, he, -⟩⟩ := exec_createDirAll hexec
    · exact hf tree hm s ⟨hF, by rw [← hd', ht]⟩
    · cases he
  · obtain ⟨hF, c, w, w', hc, hexec, rfl, -⟩ := hs
    obtain ⟨-, ⟨_, he, -⟩ | ⟨e, -, hfault | hnone⟩⟩ := exec_createDirAll hexec
    · cases he
    · exact hQ _ s hF (.inl ⟨c, hc, hfault⟩)
    · exact hQ _ s hF (.inr hnone)

theorem StagingFrame.triple_writeFile {rel : List String} {content : Bytes} {tree : Dir} {f : Unit → Fallible α}
    (hf : ∀ tree', Dir.write rel content tree = some tree' → P.Triple M t (Staged cfg F (some tree')) (f ()).run Q)
    (hQ : ∀ e s, F s → Faulty ok ∨ Dir.write rel content tree = none → Q (.error e) s) :
    P.Triple M t (Staged cfg F (some tree))
      (attempt (perform (.writeFile cfg.staging rel content)) >>= f).run Q := by
  refine triple_attempt (h.triple (.writeFile cfg.staging rel content) rfl _)
    (h.stable_answers (.writeFile cfg.staging rel content) _) (fun _ => ?_) fun e s _ hs => ?_
  · rintro s ⟨hF, c, w, w', -, hexec, hd, hd', -⟩
    obtain ⟨-, ⟨a, b, -, ha, hb, hw'⟩ | ⟨e, he, -⟩⟩ := exec_writeFile hexec
    · rw [hd, Option.some.injEq] at ha
      exact hf b (ha ▸ hb) s ⟨hF, by rw [← hd', hw']⟩
    · cases he
  · obtain ⟨hF, c, w, w', hc, hexec, hd, -⟩ := hs
    obtain ⟨-, ⟨_, _, he, -⟩ | ⟨e, -, hfault | hnone⟩⟩ := exec_writeFile hexec
    · cases he
    · exact hQ _ s hF (.inl ⟨c, hc, hfault⟩)
    · rw [hd, Option.bind_some] at hnone
      exact hQ _ s hF (.inr hnone)

theorem StagingFrame.stable_hashed (d : Option Dir) (tree : Dir) :
    P.Stable t fun s => Staged cfg F d s ∧ Hashed cfg s.log tree := by
  rintro s s' ⟨hs, u, pre, post, he⟩ hr
  exact ⟨h.stable d s s' hs hr, u, pre, post, (h.grows s s' hr).subset he⟩

theorem StagingFrame.triple_readTree {tree : Dir} {f : Dir → Fallible α}
    (hf : P.Triple M t (fun s => Staged cfg F (some tree) s ∧ Hashed cfg s.log tree) (f tree).run Q)
    (hQ : ∀ e s, F s → Faulty ok → Q (.error e) s) :
    P.Triple M t (Staged cfg F (some tree)) (attempt (perform (.readTree cfg.staging)) >>= f).run Q := by
  refine triple_attempt (h.triple (.readTree cfg.staging) rfl _)
    (h.stable_answers (.readTree cfg.staging) _) (fun tree' => ?_) fun e s _ hs => ?_
  · rintro s ⟨hF, c, w, w', -, hexec, hd, hd', hmem⟩
    obtain ⟨rfl, ⟨_, he, ht⟩ | ⟨e, he, -⟩⟩ := exec_readTree hexec
    · cases he
      rw [hd, Option.some.injEq] at ht
      subst ht
      exact hf s ⟨⟨hF, by rw [← hd', hd]⟩, t, _, _, hmem⟩
    · cases he
  · obtain ⟨hF, c, w, w', hc, hexec, hd, -⟩ := hs
    obtain ⟨-, ⟨_, he, -⟩ | ⟨e, -, hfault | hnone⟩⟩ := exec_readTree hexec
    · cases he
    · exact hQ _ s hF ⟨c, hc, hfault⟩
    · rw [hd] at hnone; cases hnone

end Rules

/-- The end of the loop over the servers, which began with `tree`. -/
def Wrote (cfg : DaemonConfig) (ok : Choice → Prop) (F : Moment → Prop) (servers : List Server) (root : String)
    (tree : Dir) : Except DaemonError String → Moment → Prop
  | .ok root', s => root' = (renderServers servers root []).1 ∧
      ∃ tree', writeServersOnto servers tree = some tree' ∧ Staged cfg F (some tree') s
  | .error _, s => F s ∧ (Faulty ok ∨ writeServersOnto servers tree = none)

theorem triple_writeServers (h : StagingFrame cfg ok P M t F) (servers : List Server) (root : String) (tree : Dir) :
    P.Triple M t (Staged cfg F (some tree)) (writeServers cfg servers root).run (Wrote cfg ok F servers root tree) := by
  induction servers generalizing root tree with
  | nil => exact triple_pure (h.stable _) fun s _ hs => ⟨rfl, tree, rfl, hs⟩
  | cons server rest ih =>
    unfold writeServers
    split
    · rename_i henabled
      refine h.triple_writeFile (fun tree' hwrite => ?_) fun e s hF hcause => ⟨hF, ?_⟩
      · refine (ih (root ++ (includeLine server ++ "\n")) tree').post fun r s _ hs => ?_
        simp only [Wrote, writeServersOnto, renderServers, henabled, ↓reduceIte, hwrite, Option.bind_some]
        cases r with
        | ok root' => exact ⟨hs.1.trans (fst_renderServers ..), hs.2⟩
        | error e => exact hs
      · simp only [writeServersOnto, henabled, ↓reduceIte]
        exact hcause.imp_right fun hnone => by rw [hnone]; rfl
    · rename_i hdisabled
      refine (ih root tree).post fun r s _ hs => ?_
      simp only [Wrote, writeServersOnto, renderServers, hdisabled]
      exact hs

/-- The end of `render_to_staging` over a directory with the entries `base`. -/
def RenderedOnto (cfg : DaemonConfig) (ok : Choice → Prop) (F : Moment → Prop) (x : ControlPlaneState)
    (base : Dir) : Except DaemonError RenderResult → Moment → Prop
  | .ok r, s => ∃ tree, renderOnto x base = some tree ∧ r.configHash = hashDirectory cfg.stagingDir tree ∧
      Staged cfg F (some tree) s ∧ Hashed cfg s.log tree
  | .error _, s => F s ∧ (Faulty ok ∨ renderOnto x base = none)

/-- The operations after the removal of an old staging directory. -/
theorem triple_renderOnto (h : StagingFrame cfg ok P M t F) (x : ControlPlaneState) (d : Option Dir) :
    P.Triple M t (Staged cfg F d) (do
      attempt (perform (.createDirAll cfg.staging ["servers"]))
      let root ← writeServers cfg (sortServers x.servers) rootHeader
      attempt (perform (.writeFile cfg.staging ["nginx.conf"] (Text.utf8 (root ++ "\x7d\n"))))
      let tree ← attempt (perform (.readTree cfg.staging))
      pure ⟨hashDirectory cfg.stagingDir tree, cfg.stagingDir.join "nginx.conf"⟩ : Fallible RenderResult).run
      (RenderedOnto cfg ok F x (d.getD [])) := by
  have fault : ∀ e s, F s → Faulty ok → RenderedOnto cfg ok F x (d.getD []) (.error e) s :=
    fun _ _ hF hfault => ⟨hF, .inl hfault⟩
  refine h.triple_createDirAll (fun tree hmkdirs => ?_) fun e s hF hcause => ⟨hF, ?_⟩
  · refine Triple.tryBind (triple_writeServers h (sortServers x.servers) rootHeader tree) (fun root => ?_) (fun e => ?_)
      fun e s _ hs => ⟨hs.1, ?_⟩
    · rintro s ⟨rfl, tree', hservers, hs⟩
      refine h.triple_writeFile (fun tree'' hwrite => ?_) (fun e s hF hcause => ⟨hF, ?_⟩) s hs
      · refine h.triple_readTree (triple_pure (h.stable_hashed _ _) fun s _ hs => ?_) fault
        exact ⟨tree'', by rw [renderOnto, hmkdirs, Option.bind_some, hservers, Option.bind_some, hwrite], rfl, hs⟩
      · refine hcause.imp_right fun hnone => ?_
        rw [renderOnto, hmkdirs, Option.bind_some, hservers, Option.bind_some, hnone]
    · rintro s s' ⟨hF, hcause⟩ hr
      exact ⟨(h.stable _ s s' ⟨hF, rfl⟩ hr).1, hcause⟩
    · refine hs.2.imp_right fun hnone => ?_
      rw [renderOnto, hmkdirs, Option.bind_some, hnone]; rfl
  · refine hcause.imp_right fun hnone => ?_
    rw [renderOnto, hnone]; rfl

/-- The end of `render_to_staging` from a staging directory `d`. -/
def Rendered (cfg : DaemonConfig) (ok : Choice → Prop) (F D : Moment → Prop) (x : ControlPlaneState)
    (d : Option Dir) : Except DaemonError RenderResult → Moment → Prop
  | .ok r, s => ∃ tree, r.configHash = hashDirectory cfg.stagingDir tree ∧ Hashed cfg s.log tree ∧
      (tree = renderTree x ∧ Staged cfg F (some tree) s ∨
        (∃ base, d = some base ∧ renderOnto x base = some tree) ∧ Faulty ok ∧ Staged cfg D (some tree) s)
  | .error _, s => Faulty ok ∧ (F s ∨ D s)

theorem Rendered.of_truth {x : ControlPlaneState} {d : Option Dir} {r : Except DaemonError RenderResult} {s : Moment}
    (h : RenderedOnto cfg ok F x [] r s) : Rendered cfg ok F D x d r s := by
  cases r with
  | ok r =>
    obtain ⟨tree, hrender, hhash, hs, hread⟩ := h
    rw [renderOnto_nil, Option.some.injEq] at hrender
    exact ⟨tree, hhash, hread, .inl ⟨hrender.symm, hs⟩⟩
  | error e =>
    refine ⟨h.2.resolve_right fun hnone => ?_, .inl h.1⟩
    rw [renderOnto_nil] at hnone; cases hnone

theorem triple_renderToStaging (hF : StagingFrame cfg ok P M t F) (hD : StagingFrame cfg ok P M t D)
    (hlook : Looks cfg ok P M t F D) (x : ControlPlaneState) (d : Option Dir) :
    P.Triple M t (Staged cfg F d) (renderToStaging cfg x).run (Rendered cfg ok F D x d) := by
  refine triple_ask (hF.stable d) (fun r s s' hs hr => ?_) (hlook d) fun r => ?_
  · rcases hs with ⟨hr', hs⟩ | ⟨hr', hd, hfault, hs⟩
    · exact .inl ⟨hr', hF.stable d s s' hs hr⟩
    · exact .inr ⟨hr', hd, hfault, hD.stable d s s' hs hr⟩
  rintro s (⟨rfl, hs⟩ | ⟨rfl, hd, hfault, hs⟩)
  · have fresh := (triple_renderOnto hF x none).post fun r s _ h => Rendered.of_truth (D := D) (d := d) h
    cases d with
    | none => exact fresh s hs
    | some tree => exact hF.triple_removeDirAll fresh (fun _ _ hF hfault => ⟨hfault, .inl hF⟩) s hs
  · -- the old entries stay
    obtain ⟨base, rfl⟩ := Option.ne_none_iff_exists'.1 hd
    refine ((triple_renderOnto hD x (some base)).post fun r s _ h => ?_) s hs
    cases r with
    | ok r =>
      obtain ⟨tree, hrender, hhash, hs, hread⟩ := h
      exact ⟨tree, hhash, hread, .inr ⟨⟨base, rfl, hrender⟩, hfault, hs⟩⟩
    | error e => exact ⟨hfault, .inr h.1⟩

end Render

section Alone

variable {cfg : DaemonConfig} {ok : Choice → Prop} {t : Nat} {x : ControlPlaneState} {s s' : Moment}

theorem stagingFrame_alone {M : Machine Op.Res Moment}
    (hM : ∀ o s r s', M.step t o s r s' → (machine.machineOn ok).step t o s r s') (F : Prop) :
    StagingFrame cfg ok (alone t) M t fun _ => F where
  grows _ _ hr := hr rfl ▸ List.suffix_rfl
  stable _ := stable_alone _
  performs o _ d := by
    refine performs_alone fun s hs r s' hstep => ⟨hs.1, ?_⟩
    obtain ⟨⟨c, hc, hexec⟩, hlog⟩ := Exec.traced_step.1 (hM o s r s' hstep)
    exact ⟨c, s.now, s'.now, hc, hexec, hs.2, rfl, hlog ▸ List.mem_cons_self⟩

/-- Where the test of the staging directory is right. -/
theorem eval_rendered {M : Machine Op.Res Moment}
    (hM : ∀ o s r s', M.step t o s r s' → (machine.machineOn ok).step t o s r s')
    (hsees : ∀ s r s', M.step t (.exists cfg.staging) s r s' → r = (s.now.disk.dirs cfg.staging).isSome)
    {r : Except DaemonError RenderResult} (h : (renderToStaging cfg x).run.Eval M t s r s') :
    Rendered cfg ok (fun _ => True) (fun _ => False) x (s.now.disk.dirs cfg.staging) r s' := by
  refine ((triple_renderToStaging (stagingFrame_alone hM True) (stagingFrame_alone hM False) (fun d => ?_) x _).eval
    ⟨trivial, rfl⟩ trivial h).1
  refine performs_alone fun s hs r s' hstep => .inl ⟨by rw [hsees s r s' hstep, hs.2], trivial, ?_⟩
  obtain ⟨⟨c, -, hexec⟩, -⟩ := Exec.traced_step.1 (hM _ s r s' hstep)
  have hnow : s'.now = s.now := (exec_exists (t := t) hexec).1
  rw [hnow, hs.2]

theorem eval_renderToStaging {r : RenderResult}
    (h : (renderToStaging cfg x).run.Eval (sighted (· = .exists cfg.staging)) t s (.ok r) s') :
    s'.now.disk.dirs cfg.staging = some (renderTree x) ∧ r.configHash = hashDirectory cfg.stagingDir (renderTree x) := by
  obtain ⟨tree, hhash, -, ⟨rfl, -, hd⟩ | ⟨-, -, hfalse, -⟩⟩ :=
    eval_rendered (M := sighted (· = .exists cfg.staging)) (fun _ _ _ _ hs => hs.1) (fun _ _ _ hs => hs.2 rfl) h
  · exact ⟨hd, hhash⟩
  · exact hfalse.elim

theorem sees_of_faultless {o : Op} {r : o.Res} (h : (machine.machineOn Faultless).step t o s r s') :
    o.Sees s.now r := by
  obtain ⟨⟨c, hc, hexec⟩, -⟩ := Exec.traced_step.1 h
  replace hexec : o.exec t c s.now = some (r, s'.now) := hexec
  cases o <;> first | exact trivial | skip
  case «exists» l => exact (exec_exists hexec).2.resolve_right fun hwrong => hwrong.2.2 hc
  case stateFileExists =>
    obtain ⟨rfl, -⟩ := Prod.mk.inj (Option.some.inj hexec)
    rw [show c.fault = none from hc]
    exact Bool.true_and _

theorem sighted_of_faultless {tests : Op → Prop} {o : Op} {r : o.Res}
    (h : (machine.machineOn Faultless).step t o s r s') : (sighted tests).step t o s r s' := by
  obtain ⟨⟨c, -, hexec⟩, hlog⟩ := Exec.traced_step.1 h
  exact ⟨Exec.traced_step.2 ⟨⟨c, trivial, hexec⟩, hlog⟩, fun _ => sees_of_faultless h⟩

/-- Whatever the test answers, a render that succeeds returns the hash of a tree with a file in it. -/
theorem eval_hashed {r : RenderResult} (h : (renderToStaging cfg x).run.Eval (machine.machineOn ok) t s (.ok r) s') :
    ∃ tree, r.configHash = hashDirectory cfg.stagingDir tree ∧ Hashed cfg s'.log tree ∧
      Dir.collect cfg.stagingDir tree ≠ [] := by
  have hframe : StagingFrame cfg ok (alone t) (machine.machineOn ok) t fun _ => True :=
    stagingFrame_alone (fun _ _ _ _ hs => hs) True
  have hlook : Looks cfg ok (alone t) (machine.machineOn ok) t (fun _ => True) fun _ => True := fun d =>
    performs_alone fun s hs r s' hstep => by
      obtain ⟨⟨c, hc, hexec⟩, -⟩ := Exec.traced_step.1 hstep
      obtain ⟨hnow, hr | ⟨hr, hd, hf⟩⟩ := exec_exists (t := t) hexec
      · exact .inl ⟨by rw [hr, hs.2], trivial, by rw [hnow, hs.2]⟩
      · exact .inr ⟨hr, hs.2 ▸ hd, ⟨c, hc, hf⟩, trivial, by rw [hnow, hs.2]⟩
  obtain ⟨tree, hhash, hread, hcase⟩ := ((triple_renderToStaging hframe hframe hlook x _).eval ⟨trivial, rfl⟩ trivial h).1
  refine ⟨tree, hhash, hread, ?_⟩
  rcases hcase with ⟨rfl, -⟩ | ⟨⟨base, -, honto⟩, -⟩
  · exact collect_renderOnto (renderOnto_nil x) _
  · exact collect_renderOnto honto _

/-- Without a fault a render succeeds. -/
theorem eval_renderToStaging_faultless {r : Except DaemonError RenderResult}
    (h : (renderToStaging cfg x).run.Eval (machine.machineOn Faultless) t s r s') : ∃ a, r = .ok a := by
  have hend := eval_rendered (fun _ _ _ _ hs => hs) (fun _ _ _ hs => sees_of_faultless hs) h
  cases r with
  | ok a => exact ⟨a, rfl⟩
  | error e => exact absurd hend.1 not_faulty_faultless

end Alone

end NginxAdmin.Daemon
