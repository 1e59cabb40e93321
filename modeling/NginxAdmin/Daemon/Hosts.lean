import NginxAdmin.Daemon.Staging
import NginxAdmin.Daemon.Validate
import Mathlib.Data.List.Forall2

/-!
# The files of the virtual hosts

`sanitize_filename` maps every character outside `[A-Za-z0-9-]` to `_`, and `validate_state` does not look
at the names of the files. So two enabled servers can share a file; `ownFiles_iff` says exactly when each
has its own.
-/

namespace NginxAdmin.Daemon

/-- A character that `sanitize_filename` keeps apart from all others. -/
def plainChar (c : Char) : Bool := c.isAlphanum || c == '-'

/-- Two ids of the same length that agree up to characters that are not plain. -/
def Confusable (a b : String) : Prop :=
  List.Forall₂ (fun c d => c = d ∨ plainChar c = false ∧ plainChar d = false) a.toList b.toList

instance (a b : String) : Decidable (Confusable a b) := inferInstanceAs (Decidable (List.Forall₂ ..))

theorem sanitizeChar_eq (c : Char) :
    (if c.isAlphanum || c == '-' || c == '_' then c else '_') = if plainChar c then c else '_' := by
  by_cases hc : c = '_'
  · subst hc; decide
  · simp [plainChar, hc]

theorem sanitizeChar_eq_iff (c d : Char) :
    (if plainChar c then c else '_') = (if plainChar d then d else '_') ↔
      c = d ∨ plainChar c = false ∧ plainChar d = false := by
  have hplain : plainChar '_' = false := by decide
  cases hc : plainChar c <;> cases hd : plainChar d <;> simp
  · constructor
    · rintro rfl; rw [hplain] at hd; cases hd
    · rintro rfl; rw [hc] at hd; cases hd
  · constructor
    · rintro rfl; rw [hplain] at hc; cases hc
    · rintro rfl; rw [hc] at hd; cases hd

theorem sanitizeFilename_eq_iff {a b : String} : sanitizeFilename a = sanitizeFilename b ↔ Confusable a b := by
  unfold sanitizeFilename Confusable
  rw [String.ofList_inj, ← List.forall₂_eq_eq_eq, List.forall₂_map_left_iff, List.forall₂_map_right_iff]
  simp only [sanitizeChar_eq, sanitizeChar_eq_iff]

theorem serverFileName_eq_iff {a b : Server} : serverFileName a = serverFileName b ↔ Confusable a.id b.id := by
  rw [serverFileName, serverFileName, String.append_left_inj, sanitizeFilename_eq_iff]

theorem includeLine_eq (server : Server) :
    includeLine server = "  include servers/" ++ serverFileName server ++ ";" := by
  simp only [includeLine, serverFile, String.append_assoc]
  rfl

theorem nodup_includeLines {servers : List Server} (h : (servers.map serverFileName).Nodup) :
    (servers.map includeLine).Nodup := by
  have hmap : servers.map includeLine =
      (servers.map serverFileName).map fun name => "  include servers/" ++ name ++ ";" := by
    rw [List.map_map]
    exact List.map_congr_left fun server _ => includeLine_eq server
  rw [hmap]
  refine h.map fun a b hab => ?_
  simpa using hab

def enabledServers (state : ControlPlaneState) : List Server := state.servers.filter (·.enabled)

/-- The entry of a server's own file. -/
def serverEntry (server : Server) : String × Node :=
  (serverFileName server, .file (Text.utf8 (renderServer server)))

theorem put_of_not_mem {name : String} {node : Node} {d : Dir} (h : name ∉ d.map Prod.fst) :
    d.put name node = d ++ [(name, node)] := by
  induction d with
  | nil => rfl
  | cons e d ih =>
    obtain ⟨n, old⟩ := e
    simp only [List.map_cons, List.mem_cons, not_or] at h
    simp [Dir.put, Ne.symm h.1, ih h.2]

/-- The loop over the servers, when every enabled one has a name of its own. -/
theorem renderServers_eq (servers : List Server) (root : String) (files : Dir)
    (h : (files.map Prod.fst ++ (servers.filter (·.enabled)).map serverFileName).Nodup) :
    renderServers servers root files =
      (root ++ concat ((servers.filter (·.enabled)).map fun s => includeLine s ++ "\n"),
        files ++ (servers.filter (·.enabled)).map serverEntry) := by
  induction servers generalizing root files with
  | nil => simp [renderServers, concat]
  | cons server rest ih =>
    unfold renderServers
    cases hs : server.enabled with
    | false =>
      simp only [List.filter_cons, hs, Bool.false_eq_true, ↓reduceIte] at h ⊢
      exact ih root files h
    | true =>
      simp only [List.filter_cons, hs, ↓reduceIte, List.map_cons] at h ⊢
      have hnew : serverFileName server ∉ files.map Prod.fst := fun hm =>
        (List.nodup_append.1 h).2.2 _ hm _ List.mem_cons_self rfl
      rw [put_of_not_mem hnew, ih]
      · simp [concat, serverEntry, String.append_assoc]
      · simpa using h

/-! ### The lines of `nginx.conf` -/

def lines (s : String) : List String := (s.toList.splitOn '\n').map String.ofList

theorem newline_not_mem_includeLine (server : Server) : '\n' ∉ (includeLine server).toList := by
  have hid : '\n' ∉ (sanitizeFilename server.id).toList := by
    simp only [sanitizeFilename, String.toList_ofList, List.mem_map, not_exists, not_and]
    intro c _
    split
    · rintro rfl; simp_all
    · decide
  rw [includeLine_eq, serverFileName]
  simp only [String.toList_append, List.mem_append, not_or]
  exact ⟨⟨by decide, hid, by decide⟩, by decide⟩

theorem splitOn_includeLines (servers : List Server) (rest : List Char) :
    ((concat (servers.map fun s => includeLine s ++ "\n")).toList ++ rest).splitOn '\n' =
      servers.map (fun s => (includeLine s).toList) ++ rest.splitOn '\n' := by
  induction servers with
  | nil => simp [concat]
  | cons server servers ih =>
    have hcons : (concat ((server :: servers).map fun s => includeLine s ++ "\n")).toList ++ rest =
        (includeLine server).toList ++ '\n' ::
          ((concat (servers.map fun s => includeLine s ++ "\n")).toList ++ rest) := by
      simp [concat, String.toList_append]
    rw [hcons, List.splitOn_append_cons_self_of_not_mem (newline_not_mem_includeLine server), ih]
    rfl

/-- The text of `nginx.conf` for these servers. -/
def nginxConf (servers : List Server) : String :=
  rootHeader ++ concat (servers.map fun s => includeLine s ++ "\n") ++ "\x7d\n"

def headerLines : List (List Char) := rootHeader.toList.dropLast.splitOn '\n'

theorem lines_nginxConf (servers : List Server) :
    lines (nginxConf servers) =
      headerLines.map String.ofList ++ servers.map includeLine ++ ["\x7d", ""] := by
  have hlast : "  keepalive_timeout  65;\n".toList = "  keepalive_timeout  65;".toList ++ ['\n'] := by decide +kernel
  have hheader : rootHeader.toList = rootHeader.toList.dropLast ++ ['\n'] := by
    delta rootHeader
    rw [String.toList_append, hlast, ← List.append_assoc, List.dropLast_concat]
  have hconf : (nginxConf servers).toList = rootHeader.toList.dropLast ++ '\n' ::
      ((concat (servers.map fun s => includeLine s ++ "\n")).toList ++ "\x7d\n".toList) := by
    simp only [nginxConf, String.toList_append, List.append_assoc]
    rw [hheader]
    simp
  have hend : "\x7d\n".toList.splitOn '\n' = [['\x7d'], []] := by decide
  rw [lines, hconf, List.splitOn_append_cons_self, splitOn_includeLines, hend]
  simp [headerLines, String.ofList_toList]

theorem includeLine_not_mem (server : Server) :
    includeLine server ∉ headerLines.map String.ofList ∧ includeLine server ∉ ["\x7d", ""] := by
  have hpre : "  include s".toList <+: (includeLine server).toList := by
    rw [includeLine_eq, String.toList_append, String.toList_append]
    exact ((by decide : "  include s".toList <+: "  include servers/".toList).trans
      (List.prefix_append _ _)).trans (List.prefix_append _ _)
  have hheader : ∀ l ∈ headerLines, ¬ "  include s".toList <+: l := by
    delta headerLines rootHeader
    simp only [String.toList_append]
    decide +kernel
  constructor
  · intro hm
    obtain ⟨l, hl, he⟩ := List.mem_map.1 hm
    have hl' : (String.ofList l).toList = l := String.toList_ofList
    rw [← he, hl'] at hpre
    exact hheader l hl hpre
  · intro hm
    simp only [List.mem_cons, List.not_mem_nil, or_false] at hm
    rcases hm with he | he <;> rw [he] at hpre <;> exact absurd hpre (by decide)

theorem count_includeLine {servers : List Server} (h : (servers.map serverFileName).Nodup) {server : Server}
    (hs : server ∈ servers) : (lines (nginxConf servers)).count (includeLine server) = 1 := by
  obtain ⟨hheader, hend⟩ := includeLine_not_mem server
  rw [lines_nginxConf, List.count_append, List.count_append, List.count_eq_zero.2 hheader,
    List.count_eq_zero.2 hend, List.count_eq_one_of_mem (nodup_includeLines h) (List.mem_map_of_mem hs)]

/-- No virtual host of `state` is lost in `tree`: the names of the files of the enabled servers differ,
`servers/` holds one file for each of them with its block, and `nginx.conf` has one include line for each. -/
structure OwnFiles (state : ControlPlaneState) (tree : Option Dir) : Prop where
  names : ((enabledServers state).map serverFileName).Nodup
  files : ∃ files conf, tree = some [("servers", .dir files), ("nginx.conf", .file (Text.utf8 conf))] ∧
    files.Perm ((enabledServers state).map serverEntry) ∧
    ∀ server ∈ enabledServers state, (lines conf).count (includeLine server) = 1

theorem sortServers_perm (state : ControlPlaneState) :
    ((sortServers state.servers).filter (·.enabled)).Perm (enabledServers state) :=
  (List.perm_insertionSort _ _).filter _

theorem nodup_serverFileName_iff {servers : List Server} :
    (servers.map serverFileName).Nodup ↔ servers.Pairwise fun a b => ¬ Confusable a.id b.id := by
  rw [List.Nodup, List.pairwise_map]
  simp only [ne_eq, serverFileName_eq_iff]

theorem ownFiles_renderTree {state : ControlPlaneState} (h : ((enabledServers state).map serverFileName).Nodup) :
    OwnFiles state (some (renderTree state)) := by
  have hperm := sortServers_perm state
  have hsorted : (((sortServers state.servers).filter (·.enabled)).map serverFileName).Nodup :=
    (hperm.map serverFileName).nodup_iff.2 h
  have hrender := renderServers_eq (sortServers state.servers) rootHeader [] (by simpa using hsorted)
  refine ⟨h, _, nginxConf ((sortServers state.servers).filter (·.enabled)), ?_, hperm.map serverEntry, ?_⟩
  · simp only [renderTree, hrender, nginxConf, List.nil_append]
  · exact fun server hs => count_includeLine hsorted (hperm.mem_iff.2 hs)

/-- After a successful `render_to_staging` whose test for an old staging directory is right, every enabled server has
its own file if and only if no two of them have confusable ids. -/
theorem ownFiles_iff (cfg : DaemonConfig) (state : ControlPlaneState) {t : Nat} {s s' : Moment} {r : RenderResult}
    (h : (renderToStaging cfg state).run.Eval (sighted (· = .exists cfg.staging)) t s (.ok r) s') :
    OwnFiles state (s'.now.disk.dirs cfg.staging) ↔
      (enabledServers state).Pairwise fun a b => ¬ Confusable a.id b.id := by
  rw [(eval_renderToStaging h).1, ← nodup_serverFileName_iff]
  exact ⟨OwnFiles.names, ownFiles_renderTree⟩

def sampleServer (id : String) : Server where
  id := id
  serverName := "example.org"
  listen := [⟨80, false, none, none⟩]
  routes := []
  tls := none
  extraDirectives := none
  enabled := true

/-- A state without anything else. -/
def stateOf (servers : List Server) : ControlPlaneState :=
  { ControlPlaneState.initial 0 with servers := servers }

/-- The world before the first render. -/
def bareMoment : Moment := ⟨.boot (stateOf []) 0 ⟨none, none, fun _ => none, fun _ => none, fun _ => false⟩, []⟩

theorem render_sample (servers : List Server) (n : Nat)
    (h : (machine.run 0 (renderToStaging .defaults (stateOf servers)).run (List.replicate n ⟨0, none, 0⟩)
      bareMoment).map (fun p => p.1.toBool) = some true) :
    ∃ r s', (renderToStaging .defaults (stateOf servers)).run.Eval (sighted (· = .exists DaemonConfig.defaults.staging))
      0 bareMoment (.ok r) s' := by
  obtain ⟨⟨r, s'⟩, hrun, hok⟩ := Option.map_eq_some_iff.1 h
  cases r with
  | ok r =>
    have hfaultless : ∀ c ∈ List.replicate n (⟨0, none, 0⟩ : Choice), Faultless c := fun c hc => by
      rw [List.eq_of_mem_replicate hc]
      rfl
    exact ⟨r, s', (Prog.eval_of_run hfaultless hrun).imp fun _ _ _ _ => sighted_of_faultless⟩
  | error e => cases hok

/-- Two hosts whose ids differ in a plain character have a file each. -/
theorem ownFiles_two : ∃ r s', (renderToStaging .defaults (stateOf [sampleServer "a.b", sampleServer "a.c"])).run.Eval
      (sighted (· = .exists DaemonConfig.defaults.staging)) 0 bareMoment (.ok r) s' ∧
    OwnFiles (stateOf [sampleServer "a.b", sampleServer "a.c"]) (s'.now.disk.dirs DaemonConfig.defaults.staging) := by
  obtain ⟨r, s', h⟩ := render_sample [sampleServer "a.b", sampleServer "a.c"] 6 (by decide +kernel)
  exact ⟨r, s', h, (ownFiles_iff .defaults _ h).2 (by decide)⟩

/-- `a.b` and `a_b` are accepted by `validate_state`, and share a file. -/
theorem ownFiles_confused : validateState (stateOf [sampleServer "a.b", sampleServer "a_b"]) = .ok () ∧
    ∃ r s', (renderToStaging .defaults (stateOf [sampleServer "a.b", sampleServer "a_b"])).run.Eval
      (sighted (· = .exists DaemonConfig.defaults.staging)) 0 bareMoment (.ok r) s' ∧
    ¬ OwnFiles (stateOf [sampleServer "a.b", sampleServer "a_b"]) (s'.now.disk.dirs DaemonConfig.defaults.staging) := by
  obtain ⟨r, s', h⟩ := render_sample [sampleServer "a.b", sampleServer "a_b"] 6 (by decide +kernel)
  exact ⟨by decide +kernel, r, s', h, fun hown => absurd hown.names (by decide +kernel)⟩

end NginxAdmin.Daemon
