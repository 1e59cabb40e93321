import NginxAdmin.Daemon.Drift
import NginxAdmin.Lib.FileSets

/-!
# What the hash of a directory tells

`hash_directory` feeds paths and contents to the hasher with nothing between them. `toldApart_iff`: the trees whose hash no
tree with other files shares are those without files, and those of one file whose bytes can be cut into paths and contents
in one way only.
-/

namespace NginxAdmin.Daemon

open PathBuf

/-- Files in the order of their paths. -/
def inOrder (files : List (List String × Bytes)) : List (List String × Bytes) :=
  files.insertionSort fun f g => Location.le f.1 g.1

/-- What is hashed of a file. -/
def fileBytes (root : PathBuf) (f : List String × Bytes) : Bytes := Text.utf8 (joinAll root f.1) ++ f.2

def SameFiles (d d' : Dir) : Prop := ∀ f, f ∈ Dir.files d ↔ f ∈ Dir.files d'

/-- The hash of a tree is that of no tree with other files, unless SHA-256 collides. -/
def ToldApart (root : PathBuf) (d : Dir) : Prop := ∀ d', Dir.WellFormed d' →
  (Sha256.digest (hashInput root d) = Sha256.digest (hashInput root d') → hashInput root d = hashInput root d') →
  hashDirectory root d = hashDirectory root d' → SameFiles d d'

/-- No other path starts the path and the content of a file, and no path of a later file is in the content. -/
structure CutOnce (root : PathBuf) (path : List String) (content : Bytes) : Prop where
  start : ∀ l, IsRelative l → Text.utf8 (joinAll root l) <+: Text.utf8 (joinAll root path) ++ content → l = path
  inside : ∀ l, IsRelative l → Location.le path l = true → Text.utf8 (joinAll root l) <:+: content → path <+: l

/-- At most one file, and one way to cut its bytes. -/
def Alone (root : PathBuf) : List (List String × Bytes) → Prop
  | [] => True
  | [f] => CutOnce root f.1 f.2
  | _ :: _ :: _ => False

variable {root : PathBuf} {d d' : Dir}

theorem hashInput_eq_files (h : Dir.WellFormed d) : hashInput root d = (inOrder (Dir.files d)).flatMap (fileBytes root) := by
  have hle : ∀ f ∈ Dir.files d, ∀ g ∈ Dir.files d, (Location.le f.1 g.1 = true ↔
      Location.le (joinAll root f.1).location (joinAll root g.1).location = true) := by
    intro f hf g hg
    rw [location_joinAll (Dir.isRelative_of_files h f hf).names, location_joinAll (Dir.isRelative_of_files h g hg).names,
      Location.le_append_left]
  have hsort := List.map_insertionSort (fun f g => Location.le f.1 g.1 = true)
    (fun f g : PathBuf × Bytes => Location.le f.1.location g.1.location = true)
    (fun f : List String × Bytes => (joinAll root f.1, f.2)) (Dir.files d) hle
  rw [hashInput, sortFiles, Dir.collect_eq, ← hsort, List.flatMap_map]
  rfl

theorem perm_inOrder (files : List (List String × Bytes)) : (inOrder files).Perm files := List.perm_insertionSort _ _

theorem mem_inOrder {files : List (List String × Bytes)} {f : List String × Bytes} : f ∈ inOrder files ↔ f ∈ files :=
  (perm_inOrder files).mem_iff

theorem pairwise_inOrder (files : List (List String × Bytes)) :
    (inOrder files).Pairwise fun f g => Location.le f.1 g.1 = true := by
  have : IsTrans (List String × Bytes) fun f g => Location.le f.1 g.1 = true := ⟨fun _ _ _ => Location.le_trans⟩
  have : Std.Total fun f g : List String × Bytes => Location.le f.1 g.1 = true := ⟨fun _ _ => Location.le_total _ _⟩
  exact List.pairwise_insertionSort _ files

theorem fileBytes_ne_nil {f : List String × Bytes} (h : IsRelative f.1) : fileBytes root f ≠ [] := by
  intro hnil
  have hpath := (List.append_eq_nil_iff.1 hnil).1
  cases htext : (joinAll root f.1).toList with
  | nil => exact joinAll_ne_empty h (String.toList_eq_nil_iff.1 htext)
  | cons c l =>
    rw [Text.utf8, htext, List.flatMap_cons] at hpath
    exact String.utf8EncodeChar_ne_nil (List.append_eq_nil_iff.1 hpath).1

theorem hashInput_single {f : List String × Bytes} (hd : Dir.WellFormed d) (hfiles : Dir.files d = [f]) :
    hashInput root d = fileBytes root f := by
  rw [hashInput_eq_files hd, hfiles]
  simp [inOrder]

theorem hashInput_pair {f g : List String × Bytes} (hd : Dir.WellFormed d) (hfiles : Dir.files d = [f, g])
    (hle : Location.le f.1 g.1 = true) : hashInput root d = fileBytes root f ++ fileBytes root g := by
  rw [hashInput_eq_files hd, hfiles]
  simp [inOrder, hle]

theorem eq_nil_of_flatMap {files : List (List String × Bytes)} (h : ∀ f ∈ files, IsRelative f.1)
    (hnil : files.flatMap (fileBytes root) = []) : files = [] := by
  cases files with
  | nil => rfl
  | cons f files =>
    rw [List.flatMap_cons] at hnil
    exact absurd (List.append_eq_nil_iff.1 hnil).1 (fileBytes_ne_nil (h f List.mem_cons_self))

/-- Trees with the same bytes have the same hash, whatever their files. -/
theorem ToldApart.same (h : ToldApart root d) (hd' : Dir.WellFormed d') (heq : hashInput root d = hashInput root d') :
    SameFiles d d' :=
  h d' hd' (fun _ => heq) (congrArg (fun b => hexEncode (Sha256.digest b)) heq)

/-- A tree that is cut in one way is cut so in every tree with its bytes. -/
theorem CutOnce.files_eq {path : List String} {content : Bytes} (h : CutOnce root path content) (hd' : Dir.WellFormed d')
    (heq : Text.utf8 (joinAll root path) ++ content = hashInput root d') (hpath : IsRelative path) :
    inOrder (Dir.files d') = [(path, content)] := by
  have hrelative : ∀ f ∈ inOrder (Dir.files d'), IsRelative f.1 :=
    fun f hf => Dir.isRelative_of_files hd' f (mem_inOrder.1 hf)
  have hapart : (inOrder (Dir.files d')).Pairwise fun f g => Apart f.1 g.1 :=
    (Dir.apart_files hd').perm (perm_inOrder _).symm fun h => ⟨h.2, h.1⟩
  have hsorted := pairwise_inOrder (Dir.files d')
  rw [hashInput_eq_files hd'] at heq
  cases hfiles : inOrder (Dir.files d') with
  | nil =>
    rw [hfiles] at heq
    have hne : fileBytes root (path, content) ≠ [] := fileBytes_ne_nil hpath
    exact absurd heq hne
  | cons f files =>
    rw [hfiles] at heq hrelative hapart hsorted
    rw [List.flatMap_cons, fileBytes, List.append_assoc] at heq
    obtain rfl : f.1 = path := h.start f.1 (hrelative f List.mem_cons_self) ⟨_, heq.symm⟩
    have hcontent := List.append_cancel_left heq
    cases files with
    | nil =>
      rw [List.flatMap_nil, List.append_nil] at hcontent
      rw [hcontent]
    | cons g files =>
      -- the path of the second file is in the content
      have hinside : Text.utf8 (joinAll root g.1) <:+: content :=
        ⟨f.2, g.2 ++ files.flatMap (fileBytes root), by rw [hcontent, List.flatMap_cons, fileBytes]; simp⟩
      have hle := List.rel_of_pairwise_cons hsorted (List.mem_cons_self : g ∈ g :: files)
      have hprefix := h.inside g.1 (hrelative g (by simp)) hle hinside
      exact absurd hprefix (List.rel_of_pairwise_cons hapart List.mem_cons_self).1

theorem toldApart_of_alone (hd : Dir.WellFormed d) (h : Alone root (Dir.files d)) : ToldApart root d := by
  intro d' hd' hcollides hhash
  have heq := hcollides (hexEncode_injective hhash)
  have hperm : (inOrder (Dir.files d')).Perm (Dir.files d) → SameFiles d d' :=
    fun hp f => hp.mem_iff.symm.trans mem_inOrder
  cases hfiles : Dir.files d with
  | nil =>
    have hnil : (inOrder (Dir.files d')).flatMap (fileBytes root) = [] := by
      rw [← hashInput_eq_files hd', ← heq, hashInput_eq_files hd, hfiles]
      rfl
    refine hperm ?_
    rw [hfiles, eq_nil_of_flatMap (fun f hf => Dir.isRelative_of_files hd' f (mem_inOrder.1 hf)) hnil]
  | cons f files =>
    rw [hfiles] at h
    cases files with
    | nil =>
      rw [hashInput_single hd hfiles] at heq
      refine hperm ?_
      rw [hfiles, CutOnce.files_eq h hd' heq (Dir.isRelative_of_files hd f (hfiles ▸ List.mem_cons_self))]
    | cons g files => exact h.elim

/-- A tree with two files shares its bytes with a tree of one. -/
theorem ToldApart.files_eq (h : ToldApart root d) (hd : Dir.WellFormed d) :
    Dir.files d = [] ∨ ∃ f, Dir.files d = [f] := by
  have hperm := perm_inOrder (Dir.files d)
  cases hfiles : inOrder (Dir.files d) with
  | nil =>
    rw [hfiles] at hperm
    exact .inl hperm.nil_eq.symm
  | cons f files =>
    rw [hfiles] at hperm
    have hrelative : ∀ g ∈ f :: files, IsRelative g.1 := fun g hg => Dir.isRelative_of_files hd g (hperm.mem_iff.1 hg)
    -- all that follows the first path may be the content of one file
    obtain ⟨d', hd', hfiles'⟩ := Dir.exists_single (hrelative f List.mem_cons_self) (f.2 ++ files.flatMap (fileBytes root))
    have heq : hashInput root d = hashInput root d' := by
      rw [hashInput_eq_files hd, hfiles, hashInput_single hd' hfiles', List.flatMap_cons, fileBytes, fileBytes,
        List.append_assoc]
    have hmem := (h.same hd' heq f).1 (hperm.mem_iff.1 List.mem_cons_self)
    rw [hfiles', List.mem_singleton] at hmem
    have hrest : files.flatMap (fileBytes root) = [] := List.self_eq_append_right.1 (congrArg Prod.snd hmem)
    rw [eq_nil_of_flatMap (fun g hg => hrelative g (List.mem_cons_of_mem _ hg)) hrest] at hperm
    exact .inr ⟨f, hperm.singleton_eq.symm⟩

theorem alone_of_toldApart (hd : Dir.WellFormed d) (h : ToldApart root d) : Alone root (Dir.files d) := by
  rcases h.files_eq hd with hfiles | ⟨f, hfiles⟩
  · rw [hfiles]
    exact trivial
  · have hpath : IsRelative f.1 := Dir.isRelative_of_files hd f (hfiles ▸ List.mem_cons_self)
    have hinput : hashInput root d = fileBytes root f := hashInput_single hd hfiles
    have hmem {d' : Dir} (hd' : Dir.WellFormed d') (heq : hashInput root d = hashInput root d') {g : List String × Bytes}
        (hg : g ∈ Dir.files d') : g = f := by
      have hold := (h.same hd' heq g).2 hg
      rwa [hfiles, List.mem_singleton] at hold
    rw [hfiles]
    constructor
    · intro l hl hstart
      obtain ⟨content, hcontent⟩ := hstart
      obtain ⟨d', hd', hfiles'⟩ := Dir.exists_single hl content
      have heq : hashInput root d = hashInput root d' := by
        rw [hinput, hashInput_single hd' hfiles', fileBytes, ← hcontent, fileBytes]
      have hsame : (l, content) = f := hmem hd' heq (hfiles' ▸ List.mem_cons_self)
      rw [← hsame]
    · intro l hl hle hinside
      obtain ⟨before, after, hcontent⟩ := hinside
      by_contra hno
      have hapart : Apart f.1 l := ⟨hno, fun hp => hno (Location.eq_of_le_of_prefix hle hp ▸ List.prefix_rfl)⟩
      obtain ⟨d', hd', hfiles'⟩ := Dir.exists_pair hpath.names hl.names hapart before after
      have heq : hashInput root d = hashInput root d' := by
        rw [hinput, hashInput_pair hd' hfiles' hle, fileBytes, ← hcontent, fileBytes, fileBytes]
        simp only [List.append_assoc]
      have hsecond : (l, after) = f := hmem hd' heq (hfiles' ▸ List.mem_cons_of_mem _ List.mem_cons_self)
      exact hno (hsecond ▸ List.prefix_rfl)

/-- Any change of such a tree is drift. -/
theorem driftDetected_of_alone (hd : Dir.WellFormed d) (h : Alone root (Dir.files d)) (hd' : Dir.WellFormed d')
    (hcollides : Sha256.digest (hashInput root d) = Sha256.digest (hashInput root d') → hashInput root d = hashInput root d')
    (hchange : ¬ SameFiles d d') : driftDetected (some (hashDirectory root d)) (some (hashDirectory root d')) = true := by
  refine driftDetected_ne fun heq => ?_
  exact hchange (toldApart_of_alone hd h d' hd' hcollides (Option.some.inj heq).symm)

/-- A tree is told apart from all others exactly when it has at most one file and one way to be cut. -/
theorem toldApart_iff (root : PathBuf) {d : Dir} (hd : Dir.WellFormed d) : ToldApart root d ↔ Alone root (Dir.files d) :=
  ⟨alone_of_toldApart hd, toldApart_of_alone hd⟩

theorem toldApart_empty_file : ToldApart "/r" [("a", .file [])] ↔ Alone "/r" [(["a"], [])] :=
  toldApart_iff "/r" ⟨⟨by decide, by decide, by decide, by decide, by decide⟩, List.not_mem_nil, trivial, trivial⟩

/-- The first letter of a content may belong to the name. -/
theorem hash_shared : ∃ d d', Dir.WellFormed d ∧ Dir.WellFormed d' ∧ hashDirectory "/r" d = hashDirectory "/r" d' ∧
    ¬ SameFiles d d' := by
  refine ⟨[("a", .file (Text.utf8 "bc"))], [("ab", .file (Text.utf8 "c"))], ?_, ?_, ?_, ?_⟩
  · exact ⟨⟨by decide, by decide, by decide, by decide, by decide⟩, List.not_mem_nil, trivial, trivial⟩
  · exact ⟨⟨by decide, by decide, by decide, by decide, by decide⟩, List.not_mem_nil, trivial, trivial⟩
  · have hinput : hashInput "/r" [("a", .file (Text.utf8 "bc"))] = hashInput "/r" [("ab", .file (Text.utf8 "c"))] := by decide
    rw [hashDirectory, hinput, hashDirectory]
  · intro h
    have hmem := (h (["a"], Text.utf8 "bc")).1 List.mem_cons_self
    exact absurd hmem (by decide)

end NginxAdmin.Daemon
