import NginxAdmin.Daemon.Apply
import Mathlib.Data.Set.Function

/-!
# Drift detection

`reconcile_once` compares the hash that it recorded of the staging directory with the hash of the runtime
directory. Both hashes cover the full paths of the files, so they differ whatever the two trees are, as
long as the directories are apart: `driftDetected_of_staged`.
-/

namespace NginxAdmin.Daemon

theorem hexDigit_inj {i j : Nat} (hi : i < 16) (hj : j < 16) (h : hexDigit i = hexDigit j) : i = j := by
  have all : ∀ i < 16, ∀ j < 16, hexDigit i = hexDigit j → i = j := by decide
  exact all i hi j hj h

theorem hexEncode_injective : Function.Injective hexEncode := by
  intro a b h
  rw [hexEncode, hexEncode, String.ofList_inj] at h
  induction a generalizing b with
  | nil =>
    cases b with
    | nil => rfl
    | cons y b => simp at h
  | cons x a ih =>
    cases b with
    | nil => simp at h
    | cons y b =>
      simp only [List.flatMap_cons, List.cons_append, List.nil_append, List.cons.injEq] at h
      obtain ⟨hhigh, hlow, h⟩ := h
      have hx := x.toNat_lt
      have hy := y.toNat_lt
      have hdiv := hexDigit_inj (by omega) (by omega) hhigh
      have hmod := hexDigit_inj (by omega) (by omega) hlow
      obtain rfl : x = y := UInt8.toNat_inj.1 (by omega)
      rw [ih h]

theorem mem_sortFiles {files : List (PathBuf × Bytes)} {f : PathBuf × Bytes} :
    f ∈ sortFiles files ↔ f ∈ files :=
  (List.perm_insertionSort _ files).mem_iff

/-- The hash of a directory that has a file starts with the path of the directory. -/
theorem hashInput_eq {path : PathBuf} {d : Dir} (h : Dir.collect path d ≠ []) :
    ∃ (l : List Char) (rest : Bytes), hashInput path d = l.flatMap String.utf8EncodeChar ++ rest ∧
      path.withSlash.toList <+: l := by
  cases hs : sortFiles (Dir.collect path d) with
  | nil =>
    obtain ⟨f, hf⟩ := List.exists_mem_of_ne_nil _ h
    rw [← mem_sortFiles, hs] at hf
    cases hf
  | cons f files =>
    have hf : f ∈ Dir.collect path d := mem_sortFiles.1 (hs ▸ List.mem_cons_self)
    have hpath := Dir.collect_prefix d List.prefix_rfl f hf
    refine ⟨f.1.toList, f.2 ++ files.flatMap fun f => Text.utf8 f.1 ++ f.2, ?_, hpath⟩
    rw [hashInput, hs, List.flatMap_cons, List.append_assoc]
    rfl

theorem withSlash_ne_nil {path : PathBuf} (h : path ≠ "") : path.withSlash.toList ≠ [] := by
  obtain ⟨l, hl, -⟩ := PathBuf.withSlash_eq h
  rw [hl]
  simp

/-- What is hashed for two directories that are apart is never the same, unless neither has a file. -/
theorem hashInput_ne {p q : PathBuf} (hapart : PathBuf.Apart p.location q.location) {d d' : Dir}
    (h : Dir.collect p d ≠ []) : hashInput p d ≠ hashInput q d' := by
  have hp : p ≠ "" := by
    rintro rfl
    exact hapart.1 (by simp [PathBuf.location, PathBuf.names_nil])
  intro heq
  obtain ⟨l, rest, hl, hpl⟩ := hashInput_eq h
  by_cases h' : Dir.collect q d' = []
  · -- nothing is hashed for the second directory, so the first path is empty
    rw [hashInput, hashInput, h', ← hashInput, hl] at heq
    obtain ⟨hl', -⟩ := List.append_eq_nil_iff.1 heq
    cases l with
    | nil => exact withSlash_ne_nil hp (List.prefix_nil.1 hpl)
    | cons c l =>
      simp only [List.flatMap_cons, List.append_eq_nil_iff] at hl'
      exact String.utf8EncodeChar_ne_nil hl'.1
  · obtain ⟨l', rest', hl', hql⟩ := hashInput_eq h'
    rw [hl, hl'] at heq
    -- both paths start the longer of the two texts
    have hcomp : p.withSlash.toList <+: q.withSlash.toList ∨ q.withSlash.toList <+: p.withSlash.toList := by
      rcases Text.prefix_or_prefix_of_utf8 heq with hle | hle
      · exact List.prefix_or_prefix_of_prefix (hpl.trans hle) hql
      · exact List.prefix_or_prefix_of_prefix hpl (hql.trans hle)
    rcases hcomp with hc | hc
    · exact hapart.1 (PathBuf.location_prefix hc)
    · exact hapart.2 (PathBuf.location_prefix hc)

/-- The hash of the runtime directory that `reconcile_once` compares with. -/
def runtimeHash (cfg : DaemonConfig) (w : World) : Option String :=
  (w.disk.dirs cfg.runtime).map (hashDirectory cfg.runtimeOutputDir)

/-- What is hashed when the runtime directory is hashed. -/
def runtimeInputs (cfg : DaemonConfig) (w : World) : Set Bytes :=
  {b | ∃ d, w.disk.dirs cfg.runtime = some d ∧ b = hashInput cfg.runtimeOutputDir d}

theorem driftDetected_none (actual : Option String) : driftDetected none actual = true := by
  cases actual <;> rfl

theorem driftDetected_ne {expected : String} {actual : Option String} (h : actual ≠ some expected) :
    driftDetected (some expected) actual = true := by
  cases actual with
  | none => rfl
  | some actual =>
    have hne : expected ≠ actual := fun he => h (by rw [he])
    exact bne_iff_ne.2 hne

/-- The hash of a staging directory with a file in it is not the hash of the runtime directory. -/
theorem driftDetected_of_staged {cfg : DaemonConfig} (hapart : PathBuf.Apart cfg.staging cfg.runtime)
    {w : World} {tree : Dir} (hfile : Dir.collect cfg.stagingDir tree ≠ []) {inputs : Set Bytes}
    (hsha : Set.InjOn Sha256.digest inputs) (htree : hashInput cfg.stagingDir tree ∈ inputs)
    (hw : runtimeInputs cfg w ⊆ inputs) :
    driftDetected (some (hashDirectory cfg.stagingDir tree)) (runtimeHash cfg w) = true := by
  refine driftDetected_ne fun h => ?_
  obtain ⟨d, hd, hhash⟩ := Option.map_eq_some_iff.1 h
  have hdigest := hexEncode_injective hhash
  have heq := hsha htree (hw ⟨d, hd, rfl⟩) hdigest.symm
  exact hashInput_ne hapart hfile heq

end NginxAdmin.Daemon
