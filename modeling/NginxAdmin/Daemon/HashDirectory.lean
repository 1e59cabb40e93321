import NginxAdmin.Lib.Listing
import NginxAdmin.Lib.StableSort
import NginxAdmin.Daemon.TreeHash

/-!
# Reading a directory for its hash (`hash_directory` of `renderer.rs` and of `apply.rs`)

Paths are bytes here, and `read_dir` yields the entries of every directory in an order of its own. `hash_any_order`: the order
does not matter, and the two copies agree. `hashDirectory_eq`: where names are text, this is `hashDirectory` of the tree.
-/

namespace NginxAdmin.Daemon.HashDirectory

open OsPath (joinAll key lossy)

inductive IoError where
  | notFound
  | notADirectory
  | other (message : String)
deriving DecidableEq, Repr

/-- What is read of the disk. -/
structure FileSystem where
  /-- What is behind a path, with all entries in the order of `read_dir`. -/
  found : OsPath → Option DirEntry
  read : OsPath → Except IoError Bytes
  wellFormed : ∀ path entry, found path = some entry → entry.WellFormed

def FileSystem.readDir (fs : FileSystem) (path : OsPath) : Except IoError Listing :=
  match fs.found path with
  | none => .error .notFound
  | some .other => .error .notADirectory
  | some (.dir d) => .ok d

mutual

def collectEntry (path : OsPath) : DirEntry → List OsPath → List OsPath
  | .dir d, out => collectEntries path d out
  | .other, out => out ++ [path]

/-- The loop of `collect_files`. -/
def collectEntries (path : OsPath) : List (OsPath × DirEntry) → List OsPath → List OsPath
  | [], out => out
  | (name, entry) :: rest, out => collectEntries path rest (collectEntry (path.join name) entry out)

end

def collectFiles (fs : FileSystem) (path : OsPath) (out : List OsPath) : Except IoError (List OsPath) := do
  let d ← fs.readDir path
  return collectEntries path d out

/-- `files.sort()` -/
def sortPaths (files : List OsPath) : List OsPath := files.insertionSort fun p q => p.key ≤ q.key

/-- The updates of the hasher. -/
def hashFiles (fs : FileSystem) : Bytes → List OsPath → Except IoError Bytes
  | hasher, [] => .ok hasher
  | hasher, file :: files => do
    let content ← fs.read file
    hashFiles fs (hasher ++ file.lossy ++ content) files

namespace Renderer

def collectFiles (fs : FileSystem) (path : OsPath) (out : List OsPath) : Except IoError (List OsPath) :=
  HashDirectory.collectFiles fs path out

def hashDirectory (fs : FileSystem) (path : OsPath) : Except IoError String := do
  let files ← Renderer.collectFiles fs path []
  let hasher ← hashFiles fs [] (sortPaths files)
  return hexEncode (Sha256.digest hasher)

end Renderer

namespace Apply

def collectFiles (fs : FileSystem) (path : OsPath) (out : List OsPath) : Except IoError (List OsPath) :=
  HashDirectory.collectFiles fs path out

def hashDirectory (fs : FileSystem) (path : OsPath) : Except IoError (Option String) := do
  if (fs.found path).isNone then
    return none
  let files ← Apply.collectFiles fs path []
  let hasher ← hashFiles fs [] (sortPaths files)
  return some (hexEncode (Sha256.digest hasher))

end Apply

/-- The same disk, with its directories in other orders. -/
structure FileSystem.Relisted (fs fs' : FileSystem) : Prop where
  found : ∀ path, Option.Rel DirEntry.Relisted (fs.found path) (fs'.found path)
  read : ∀ path, fs'.read path = fs.read path

/-- Each entry that is not a directory is gathered once, and nothing else. -/
structure Gathered (root : OsPath) (d : Listing) (out : List OsPath) : Prop where
  once : ∀ l, (DirEntry.dir d).at? l = some .other → out.count (joinAll root l) = 1
  only : ∀ p ∈ out, ∃! l, (DirEntry.dir d).at? l = some .other ∧ joinAll root l = p

mutual

theorem collectEntry_eq (path : OsPath) (entry : DirEntry) (out : List OsPath) :
    collectEntry path entry out = out ++ entry.files.map (joinAll path) := by
  cases entry with
  | other => rfl
  | dir d => exact collectEntries_eq path d out

theorem collectEntries_eq (path : OsPath) (d : List (OsPath × DirEntry)) (out : List OsPath) :
    collectEntries path d out = out ++ (Listing.files d).map (joinAll path) := by
  cases d with
  | nil => exact (List.append_nil out).symm
  | cons e d =>
    obtain ⟨name, entry⟩ := e
    rw [collectEntries, collectEntries_eq path d, collectEntry_eq, Listing.files, List.map_append, List.map_map, List.append_assoc]
    rfl

end

theorem joinAll_inj_of_files {d : Listing} (hd : Listing.WellFormed d) {root : OsPath} {l l' : List OsPath} (hl : l ∈ Listing.files d)
    (hl' : l' ∈ Listing.files d) (h : (joinAll root l).components = (joinAll root l').components) : l = l' :=
  OsPath.joinAll_inj (Listing.isName_of_files hd l hl) (Listing.isName_of_files hd l' hl') h

theorem gathered_collectEntries {d d' : Listing} (hd : Listing.WellFormed d) (h : Listing.Relisted d d') (root : OsPath) :
    Gathered root d (collectEntries root d' []) := by
  have hperm : (collectEntries root d' []).Perm ((Listing.files d).map (joinAll root)) := by
    rw [collectEntries_eq, List.nil_append]
    exact (Listing.perm_files h).symm.map _
  have hnodup : ((Listing.files d).map (joinAll root)).Nodup :=
    (Listing.nodup_files hd).map_on fun l hl l' hl' heq => joinAll_inj_of_files hd hl hl' (congrArg _ heq)
  constructor
  · intro l hl
    rw [hperm.count_eq]
    exact List.count_eq_one_of_mem hnodup (List.mem_map_of_mem ((Listing.mem_files hd l).2 hl))
  · intro p hp
    obtain ⟨l, hl, rfl⟩ := List.mem_map.1 (hperm.mem_iff.1 hp)
    refine ⟨l, ⟨(Listing.mem_files hd l).1 hl, rfl⟩, ?_⟩
    rintro l' ⟨hl', heq⟩
    exact joinAll_inj_of_files hd ((Listing.mem_files hd l').2 hl') hl (congrArg _ heq)

/-- The paths of a tree are sorted in one way. -/
theorem sortPaths_relisted {d d' : Listing} (hd : Listing.WellFormed d) (h : Listing.Relisted d d') (root : OsPath) :
    sortPaths (collectEntries root d' []) = sortPaths (collectEntries root d []) := by
  have : IsTrans OsPath fun p q => p.key ≤ q.key := ⟨fun _ _ _ => le_trans⟩
  have : Std.Total fun p q : OsPath => p.key ≤ q.key := ⟨fun p q => le_total p.key q.key⟩
  rw [collectEntries_eq, collectEntries_eq, List.nil_append, List.nil_append]
  refine (List.Perm.insertionSort_eq ((Listing.perm_files h).map _) ?_).symm
  intro p hp q hq hle hle'
  obtain ⟨l, hl, rfl⟩ := List.mem_map.1 hp
  obtain ⟨l', hl', rfl⟩ := List.mem_map.1 hq
  rw [joinAll_inj_of_files hd hl hl' (OsPath.key_inj.1 (le_antisymm hle hle'))]

theorem hashFiles_relisted {fs fs' : FileSystem} (h : fs.Relisted fs') (hasher : Bytes) (files : List OsPath) :
    hashFiles fs' hasher files = hashFiles fs hasher files := by
  induction files generalizing hasher with
  | nil => rfl
  | cons file files ih =>
    rw [hashFiles, hashFiles, h.read]
    exact bind_congr fun content => ih _

/-- A path is there in every order, or in none, and what is read there is the same tree. -/
theorem FileSystem.Relisted.cases {fs fs' : FileSystem} (h : fs.Relisted fs') (path : OsPath) :
    (fs.found path = none ∧ fs'.found path = none) ∨ (fs.found path = some .other ∧ fs'.found path = some .other) ∨
      ∃ d d', fs.found path = some (.dir d) ∧ fs'.found path = some (.dir d') ∧ Listing.Relisted d d' := by
  have hfound := h.found path
  generalize fs.found path = e at hfound ⊢
  generalize fs'.found path = e' at hfound ⊢
  cases hfound with
  | none => exact .inl ⟨rfl, rfl⟩
  | @some entry entry' hentry =>
    cases entry with
    | other =>
      cases entry' with
      | other => exact .inr (.inl ⟨rfl, rfl⟩)
      | dir d' => exact hentry.elim
    | dir d =>
      cases entry' with
      | other => exact hentry.elim
      | dir d' => exact .inr (.inr ⟨d, d', rfl, rfl, hentry⟩)

theorem collectFiles_dir {fs : FileSystem} {path : OsPath} {d : Listing} (h : fs.found path = some (.dir d))
    (out : List OsPath) : collectFiles fs path out = .ok (collectEntries path d out) := by
  unfold collectFiles FileSystem.readDir
  rw [h]
  rfl

theorem Renderer.hashDirectory_dir {fs : FileSystem} {path : OsPath} {d : Listing} (h : fs.found path = some (.dir d)) :
    Renderer.hashDirectory fs path =
      (hashFiles fs [] (sortPaths (collectEntries path d []))).map fun hasher => hexEncode (Sha256.digest hasher) := by
  unfold Renderer.hashDirectory Renderer.collectFiles
  rw [collectFiles_dir h]
  rfl

theorem Renderer.hashDirectory_error {fs : FileSystem} {path : OsPath} {e : IoError} (h : fs.readDir path = .error e) :
    Renderer.hashDirectory fs path = .error e := by
  unfold Renderer.hashDirectory Renderer.collectFiles HashDirectory.collectFiles
  rw [h]
  rfl

/-- Of a path that is there both copies make the same. -/
theorem apply_eq_renderer {fs : FileSystem} {path : OsPath} (h : fs.found path ≠ none) :
    Apply.hashDirectory fs path = (Renderer.hashDirectory fs path).map some := by
  unfold Apply.hashDirectory Renderer.hashDirectory Apply.collectFiles Renderer.collectFiles
  rw [if_neg (by simpa using h)]
  cases collectFiles fs path [] with
  | error e => rfl
  | ok files =>
    show Except.bind (hashFiles fs [] (sortPaths files)) _ = (Except.bind (hashFiles fs [] (sortPaths files)) _).map some
    cases hashFiles fs [] (sortPaths files) with
    | error e => rfl
    | ok hasher => rfl

theorem Renderer.hashDirectory_relisted {fs fs' : FileSystem} (h : fs.Relisted fs') (path : OsPath) :
    Renderer.hashDirectory fs' path = Renderer.hashDirectory fs path := by
  obtain ⟨hfound, hfound'⟩ | ⟨hfound, hfound'⟩ | ⟨d, d', hfound, hfound', hd⟩ := h.cases path
  · have hread : ∀ {fs : FileSystem}, fs.found path = none → fs.readDir path = .error .notFound := by
      simp +contextual [FileSystem.readDir]
    rw [Renderer.hashDirectory_error (hread hfound), Renderer.hashDirectory_error (hread hfound')]
  · have hread : ∀ {fs : FileSystem}, fs.found path = some .other → fs.readDir path = .error .notADirectory := by
      simp +contextual [FileSystem.readDir]
    rw [Renderer.hashDirectory_error (hread hfound), Renderer.hashDirectory_error (hread hfound')]
  · have hwell : Listing.WellFormed d := fs.wellFormed path _ hfound
    rw [Renderer.hashDirectory_dir hfound, Renderer.hashDirectory_dir hfound', sortPaths_relisted hwell hd, hashFiles_relisted h]

theorem Apply.hashDirectory_relisted {fs fs' : FileSystem} (h : fs.Relisted fs') (path : OsPath) :
    Apply.hashDirectory fs' path = Apply.hashDirectory fs path := by
  obtain ⟨hfound, hfound'⟩ | hthere := h.cases path
  · simp [Apply.hashDirectory, hfound, hfound']
  · have hne : fs.found path ≠ none ∧ fs'.found path ≠ none := by
      obtain ⟨hfound, hfound'⟩ | ⟨d, d', hfound, hfound', -⟩ := hthere
      · simp [hfound, hfound']
      · simp [hfound, hfound']
    rw [apply_eq_renderer hne.1, apply_eq_renderer hne.2, Renderer.hashDirectory_relisted h]

theorem gathered_relisted {fs fs' : FileSystem} (h : fs.Relisted fs') {path : OsPath} {d : Listing}
    (hd : fs.readDir path = .ok d) : ∃ out, collectFiles fs' path [] = .ok out ∧ Gathered path d out := by
  obtain ⟨hfound, -⟩ | ⟨hfound, -⟩ | ⟨d₁, d', hfound, hfound', hrelisted⟩ := h.cases path
  · simp [FileSystem.readDir, hfound] at hd
  · simp [FileSystem.readDir, hfound] at hd
  · obtain rfl : d₁ = d := by simpa [FileSystem.readDir, hfound] using hd
    exact ⟨_, collectFiles_dir hfound' [], gathered_collectEntries (fs.wellFormed path _ hfound) hrelisted path⟩

/-- In whatever order the entries are yielded, each that is not a directory is gathered once and the hash is the same; the two
copies give the same for a path that is there. -/
theorem hash_any_order {fs fs' : FileSystem} (h : fs.Relisted fs') (path : OsPath) :
    (∀ d, fs.readDir path = .ok d →
      (∃ out, Apply.collectFiles fs' path [] = .ok out ∧ Gathered path d out) ∧
      ∃ out, Renderer.collectFiles fs' path [] = .ok out ∧ Gathered path d out) ∧
    Apply.hashDirectory fs' path = Apply.hashDirectory fs path ∧
    Renderer.hashDirectory fs' path = Renderer.hashDirectory fs path ∧
    (fs.found path ≠ none → Apply.hashDirectory fs path = (Renderer.hashDirectory fs path).map some) := by
  refine ⟨fun d hd => ⟨gathered_relisted h hd, gathered_relisted h hd⟩, Apply.hashDirectory_relisted h path,
    Renderer.hashDirectory_relisted h path, apply_eq_renderer⟩

/-- A disk with one directory of empty files. -/
def FileSystem.single (d : Listing) (hd : Listing.WellFormed d) : FileSystem where
  found path := if path = Text.utf8 "/s" then some (.dir d) else none
  read _ := .ok []
  wellFormed path entry h := by
    split at h
    · obtain rfl := Option.some.inj h
      exact hd
    · cases h

theorem FileSystem.relisted_single {d d' : Listing} (hd : Listing.WellFormed d) (hd' : Listing.WellFormed d')
    (h : Listing.Relisted d d') : (FileSystem.single d hd).Relisted (.single d' hd') := by
  refine ⟨fun path => ?_, fun _ => rfl⟩
  show Option.Rel DirEntry.Relisted (if path = Text.utf8 "/s" then some (.dir d) else none)
    (if path = Text.utf8 "/s" then some (.dir d') else none)
  by_cases hpath : path = Text.utf8 "/s"
  · rw [if_pos hpath, if_pos hpath]
    exact .some h
  · rw [if_neg hpath, if_neg hpath]
    exact .none

/-- The file `a` and the directory `b` in both orders. -/
theorem hash_any_order_single :
    let d : Listing := [([97], .other), ([98], .dir [([97], .other)])]
    let d' : Listing := [([98], .dir [([97], .other)]), ([97], .other)]
    ∃ (hd : Listing.WellFormed d) (hd' : Listing.WellFormed d'),
      Apply.hashDirectory (.single d' hd') (Text.utf8 "/s") = Apply.hashDirectory (.single d hd) (Text.utf8 "/s") ∧
        Apply.hashDirectory (.single d hd) (Text.utf8 "/s") =
          (Renderer.hashDirectory (.single d hd) (Text.utf8 "/s")).map some := by
  intro d d'
  have hname : OsPath.IsName [97] ∧ OsPath.IsName [98] := by decide
  have hd : Listing.WellFormed d :=
    ⟨hname.1, by decide, trivial, hname.2, by decide, ⟨hname.1, by decide, trivial, trivial⟩, trivial⟩
  have hd' : Listing.WellFormed d' :=
    ⟨hname.2, by decide, ⟨hname.1, by decide, trivial, trivial⟩, hname.1, by decide, trivial, trivial⟩
  have h := hash_any_order (FileSystem.relisted_single hd hd' (.swap _ _ _)) (Text.utf8 "/s")
  exact ⟨hd, hd', h.2.1, h.2.2.2 (by simp [FileSystem.single])⟩

/-! ### Names that are text -/

mutual

def entryOf : Node → DirEntry
  | .file _ => .other
  | .dir d => .dir (listingOf d)

/-- A tree whose names are text, with their bytes. -/
def listingOf : List (String × Node) → List (OsPath × DirEntry)
  | [] => []
  | (name, node) :: rest => (Text.utf8 name, entryOf node) :: listingOf rest

end

mutual

theorem files_entryOf (node : Node) : (entryOf node).files = node.files.map fun f => f.1.map Text.utf8 := by
  cases node with
  | file c => rfl
  | dir d => exact files_listingOf d

theorem files_listingOf (d : List (String × Node)) :
    Listing.files (listingOf d) = (Dir.files d).map fun f => f.1.map Text.utf8 := by
  cases d with
  | nil => rfl
  | cons e d =>
    obtain ⟨name, node⟩ := e
    rw [listingOf, Listing.files, Dir.files, List.map_append, List.map_map, files_entryOf, files_listingOf d, List.map_map]
    rfl

end

theorem utf8_eq (s : String) : Text.utf8 s = Utf8.encode s.toList := rfl

/-- The byte of an ASCII character is no part of another one. -/
theorem ascii_mem_utf8 {c : Char} {b : UInt8} (hb : b.toNat ≤ 0x7f) (hc : c.val.toNat = b.toNat) {s : String} :
    b ∈ Text.utf8 s ↔ c ∈ s.toList := by
  rw [utf8_eq, Utf8.encode, List.mem_flatMap]
  constructor
  · rintro ⟨d, hd, hmem⟩
    have hval := (Utf8.mem_encodeChar_ascii hb).1 hmem
    obtain rfl : d = c := Char.ext (UInt32.toNat_inj.1 (hval.trans hc.symm))
    exact hd
  · exact fun h => ⟨c, h, (Utf8.mem_encodeChar_ascii hb).2 hc⟩

theorem utf8_injective : Function.Injective Text.utf8 := fun _ _ h => String.toList_inj.1 (Utf8.encode_injective h)

theorem isName_utf8 {name : String} (h : PathBuf.IsName name) : OsPath.IsName (Text.utf8 name) := by
  refine ⟨fun he => h.ne_empty (utf8_injective he), fun he => h.ne_dot (utf8_injective he),
    fun he => h.ne_dots (utf8_injective he), fun hs => h.no_slash ?_, fun hn => h.no_nul ?_⟩
  · exact (ascii_mem_utf8 (by decide) (by decide)).1 hs
  · exact (ascii_mem_utf8 (by decide) (by decide)).1 hn

/-- A path of text ends with a separator when its bytes do. -/
theorem separator_utf8 (path : PathBuf) : Text.utf8 path.withSlash = Text.utf8 path ++ OsPath.separator (Text.utf8 path) := by
  rcases List.eq_nil_or_concat path.toList with hnil | ⟨l, c, hconcat⟩
  · obtain rfl : path = "" := String.toList_eq_nil_iff.1 hnil
    rfl
  · have hne : path ≠ "" := by
      rintro rfl
      simp at hconcat
    have hbytes : Text.utf8 path = Utf8.encode l ++ String.utf8EncodeChar c := by
      rw [utf8_eq, hconcat, List.concat_eq_append, Utf8.encode_append, Utf8.encode_cons]
      exact congrArg _ (List.append_nil _)
    by_cases hc : c = '/'
    · subst hc
      have hends : Text.endsWith path "/" = true := by simp [Text.endsWith, hconcat]
      have hsep : OsPath.separator (Utf8.encode l ++ String.utf8EncodeChar '/') = [] := by
        have hslash : String.utf8EncodeChar '/' = [OsPath.slash] := rfl
        simp [OsPath.separator, hslash]
      rw [PathBuf.withSlash, if_neg hne, if_pos hends, hbytes, hsep, List.append_nil]
    · have hends : ¬ Text.endsWith path "/" = true := by
        intro hends
        obtain ⟨before, heq⟩ : "/".toList <:+ l.concat c := by simpa [Text.endsWith, hconcat] using hends
        have hlast := congrArg List.getLast? heq
        exact hc (by simpa using hlast.symm)
      obtain ⟨b, hlast⟩ := Option.ne_none_iff_exists'.1 (mt List.getLast?_eq_none_iff.1 String.utf8EncodeChar_ne_nil)
      have hb : b ≠ OsPath.slash := by
        rintro rfl
        have hval := (Utf8.mem_encodeChar_ascii (by decide)).1 (List.mem_of_getLast? hlast)
        exact hc (Char.ext (UInt32.toNat_inj.1 hval))
      have hsep : OsPath.separator (Utf8.encode l ++ String.utf8EncodeChar c) = [OsPath.slash] := by
        rw [OsPath.separator, List.getLast?_append, hlast, Option.some_or]
        exact if_neg hb
      rw [PathBuf.withSlash, if_neg hne, if_neg hends, utf8_eq, String.toList_append, Utf8.encode_append, ← utf8_eq, hbytes, hsep]
      rfl

theorem utf8_joinAll (root : PathBuf) (l : List String) :
    Text.utf8 (PathBuf.joinAll root l) = joinAll (Text.utf8 root) (l.map Text.utf8) := by
  induction l generalizing root with
  | nil => rfl
  | cons n l ih =>
    rw [PathBuf.joinAll_cons, ih, List.map_cons, joinAll, joinAll, List.foldl_cons]
    congr 1
    rw [PathBuf.join, OsPath.join, ← separator_utf8, utf8_eq, utf8_eq, utf8_eq, String.toList_append, Utf8.encode_append]

theorem lossy_utf8 (s : String) : lossy (Text.utf8 s) = Text.utf8 s := by
  rw [lossy, utf8_eq, Utf8.decode_encode]

theorem le_iff_not_lt (a b : List (List Nat)) : a ≤ b ↔ ¬ @LT.lt _ List.instLT b a := not_lt.symm

theorem append_le_iff (a b c : List (List Nat)) : a ++ b ≤ a ++ c ↔ b ≤ c := by
  induction a with
  | nil => rfl
  | cons x a ih =>
    rw [← ih, List.cons_append, List.cons_append, le_iff_not_lt, le_iff_not_lt, List.cons_lt_cons_iff]
    simp

/-- Names of text are ordered as their bytes are. -/
theorem key_utf8_le {root : OsPath} {l l' : List String} (h : ∀ n ∈ l, PathBuf.IsName n) (h' : ∀ n ∈ l', PathBuf.IsName n) :
    key (joinAll root (l.map Text.utf8)) ≤ key (joinAll root (l'.map Text.utf8)) ↔ Location.le l l' = true := by
  have hkey : ∀ {l : List String}, (∀ n ∈ l, PathBuf.IsName n) → key (joinAll root (l.map Text.utf8)) =
      key root ++ l.map fun n => 3 :: (Text.utf8 n).map UInt8.toNat := by
    intro l hl
    rw [OsPath.key_joinAll (by simpa using fun n hn => isName_utf8 (hl n hn)), List.map_map]
    rfl
  rw [hkey h, hkey h', append_le_iff]
  clear hkey h h'
  induction l generalizing l' with
  | nil => simp [le_iff_not_lt, Location.le]
  | cons n l ih =>
    cases l' with
    | nil => simp [le_iff_not_lt, Location.le]
    | cons n' l' =>
      have hhead : ¬ 3 :: (Text.utf8 n').map UInt8.toNat < 3 :: (Text.utf8 n).map UInt8.toNat ↔ n ≤ n' := by
        have htext : n'.toList < n.toList ↔ n' < n := Iff.rfl
        rw [List.cons_lt_cons_iff, utf8_eq, utf8_eq, Utf8.encode_lt_iff, ← String.not_lt, htext]
        simp
      have hsame : 3 :: (Text.utf8 n').map UInt8.toNat = 3 :: (Text.utf8 n).map UInt8.toNat ↔ n = n' := by
        have hbytes : Function.Injective (List.map UInt8.toNat) := List.map_injective_iff.2 fun a b => UInt8.toNat_inj.1
        rw [List.cons.injEq, hbytes.eq_iff, utf8_injective.eq_iff, eq_comm (a := n')]
        simp
      rw [List.map_cons, List.map_cons, le_iff_not_lt, List.cons_lt_cons_iff, Location.le_cons, not_or, not_and, hhead, hsame]
      exact and_congr_right fun _ => imp_congr_right fun _ => (le_iff_not_lt _ _).symm.trans (@ih l')

/-- What the disk has of a tree whose names are text. -/
structure FileSystem.Holds (fs : FileSystem) (root : PathBuf) (d : Dir) : Prop where
  found : fs.found (Text.utf8 root) = some (.dir (listingOf d))
  read : ∀ f ∈ Dir.files d, fs.read (Text.utf8 (PathBuf.joinAll root f.1)) = .ok f.2

theorem hashFiles_ok {fs : FileSystem} {root : PathBuf} (files : List (List String × Bytes))
    (h : ∀ f ∈ files, fs.read (Text.utf8 (PathBuf.joinAll root f.1)) = .ok f.2) (hasher : Bytes) :
    hashFiles fs hasher (files.map fun f => Text.utf8 (PathBuf.joinAll root f.1)) = .ok (hasher ++ files.flatMap (fileBytes root)) := by
  induction files generalizing hasher with
  | nil => simp [hashFiles]
  | cons f files ih =>
    rw [List.forall_mem_cons] at h
    rw [List.map_cons, hashFiles, h.1, lossy_utf8]
    show hashFiles fs (hasher ++ _ ++ f.2) _ = _
    rw [ih h.2, List.flatMap_cons, fileBytes]
    simp only [List.append_assoc]

/-- The hash of a tree. -/
theorem hashDirectory_eq {fs : FileSystem} {root : PathBuf} {d : Dir} (hd : Dir.WellFormed d) (h : fs.Holds root d) :
    Renderer.hashDirectory fs (Text.utf8 root) = .ok (hashDirectory root d) := by
  have hsort : sortPaths (collectEntries (Text.utf8 root) (listingOf d) []) =
      (inOrder (Dir.files d)).map fun f => Text.utf8 (PathBuf.joinAll root f.1) := by
    have hfiles : collectEntries (Text.utf8 root) (listingOf d) [] =
        (Dir.files d).map fun f => Text.utf8 (PathBuf.joinAll root f.1) := by
      rw [collectEntries_eq, files_listingOf, List.nil_append, List.map_map]
      exact List.map_congr_left fun f _ => (utf8_joinAll root f.1).symm
    rw [hfiles, sortPaths, inOrder]
    refine (List.map_insertionSort _ _ _ _ fun f hf g hg => ?_).symm
    rw [utf8_joinAll, utf8_joinAll]
    exact (key_utf8_le (Dir.isRelative_of_files hd f hf).names (Dir.isRelative_of_files hd g hg).names).symm
  rw [Renderer.hashDirectory_dir h.found, hsort, hashFiles_ok _ fun f hf => h.read f (mem_inOrder.1 hf)]
  rw [hashDirectory, hashInput_eq_files hd]
  rfl

end NginxAdmin.Daemon.HashDirectory
