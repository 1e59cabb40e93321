import Mathlib.Data.List.Nodup
import NginxAdmin.Lib.OsPath

/-!
# Listings of a directory

The entries of a directory tree, at every level in the order in which they are read. `Listing.Relisted`: the same tree, read in
other orders. `perm_files`: the same files are below it, and each once (`nodup_files`, `mem_files`).
-/

namespace NginxAdmin

/-- An entry of a directory; `other` is whatever is not a directory. -/
inductive DirEntry where
  | other
  | dir (entries : List (OsPath × DirEntry))

abbrev Listing := List (OsPath × DirEntry)

/-- The entry at a relative path. -/
def DirEntry.at? : List OsPath → DirEntry → Option DirEntry
  | [], e => some e
  | _ :: _, .other => none
  | name :: names, .dir d => (d.lookup name).bind (at? names)

mutual

def DirEntry.WellFormed : DirEntry → Prop
  | .other => True
  | .dir d => Listing.WellFormed d

/-- Every entry has a name of its own, at every depth. -/
def Listing.WellFormed : List (OsPath × DirEntry) → Prop
  | [] => True
  | (name, entry) :: rest => OsPath.IsName name ∧ name ∉ rest.map Prod.fst ∧ entry.WellFormed ∧ Listing.WellFormed rest

end

/-- The same tree in other orders. -/
inductive Listing.Relisted : Listing → Listing → Prop
  | nil : Listing.Relisted [] []
  | cons {d d' : Listing} (e : OsPath × DirEntry) (h : Listing.Relisted d d') : Listing.Relisted (e :: d) (e :: d')
  | swap (x y : OsPath × DirEntry) (d : Listing) : Listing.Relisted (x :: y :: d) (y :: x :: d)
  | inside {d d' : Listing} (name : OsPath) (h : Listing.Relisted d d') (rest : Listing) :
      Listing.Relisted ((name, .dir d) :: rest) ((name, .dir d') :: rest)
  | trans {d d' d'' : Listing} (h : Listing.Relisted d d') (h' : Listing.Relisted d' d'') : Listing.Relisted d d''

def DirEntry.Relisted : DirEntry → DirEntry → Prop
  | .other, .other => True
  | .dir d, .dir d' => Listing.Relisted d d'
  | .other, .dir _ | .dir _, .other => False

mutual

def DirEntry.files : DirEntry → List (List OsPath)
  | .other => [[]]
  | .dir d => Listing.files d

/-- The relative paths of what is not a directory. -/
def Listing.files : List (OsPath × DirEntry) → List (List OsPath)
  | [] => []
  | (name, entry) :: rest => (entry.files.map fun l => name :: l) ++ Listing.files rest

end

/-- In every order the same files are listed. -/
theorem Listing.perm_files {d d' : Listing} (h : Listing.Relisted d d') : (Listing.files d).Perm (Listing.files d') := by
  induction h with
  | nil => exact .refl _
  | cons e _ ih => exact ih.append_left _
  | swap x y d =>
    rw [Listing.files, Listing.files, Listing.files, Listing.files, ← List.append_assoc, ← List.append_assoc]
    exact List.perm_append_comm.append_right _
  | inside name _ rest ih => exact (ih.map _).append_right _
  | trans _ _ ih ih' => exact ih.trans ih'

/-- The path of a file starts with the name of an entry. -/
theorem Listing.cons_of_mem_files {d : Listing} {l : List OsPath} (h : l ∈ Listing.files d) :
    ∃ n ∈ d.map Prod.fst, ∃ l', l = n :: l' := by
  induction d with
  | nil => cases h
  | cons e d ih =>
    obtain ⟨name, entry⟩ := e
    rw [Listing.files, List.mem_append] at h
    rcases h with h | h
    · obtain ⟨l', -, rfl⟩ := List.mem_map.1 h
      exact ⟨name, List.mem_cons_self, l', rfl⟩
    · obtain ⟨n, hn, hcons⟩ := ih h
      exact ⟨n, List.mem_cons_of_mem _ hn, hcons⟩

mutual

theorem DirEntry.mem_files {entry : DirEntry} (h : entry.WellFormed) (l : List OsPath) :
    l ∈ entry.files ↔ entry.at? l = some .other := by
  cases entry with
  | other =>
    cases l with
    | nil => simp [DirEntry.files, DirEntry.at?]
    | cons n l => simp [DirEntry.files, DirEntry.at?]
  | dir d => exact Listing.mem_files h l

theorem Listing.mem_files {d : List (OsPath × DirEntry)} (h : Listing.WellFormed d) (l : List OsPath) :
    l ∈ Listing.files d ↔ (DirEntry.dir d).at? l = some .other := by
  cases l with
  | nil =>
    have hnil : [] ∉ Listing.files d := by
      intro hmem
      obtain ⟨n, -, l', hcons⟩ := Listing.cons_of_mem_files hmem
      cases hcons
    simp [hnil, DirEntry.at?]
  | cons n l =>
    cases d with
    | nil => simp [Listing.files, DirEntry.at?]
    | cons e d =>
      obtain ⟨name, entry⟩ := e
      obtain ⟨-, hnew, hentry, hd⟩ := h
      rw [Listing.files, List.mem_append, DirEntry.at?, List.lookup_cons]
      by_cases hname : n = name
      · subst hname
        have hrest : n :: l ∉ Listing.files d := by
          intro hmem
          obtain ⟨n', hn', l', hcons⟩ := Listing.cons_of_mem_files hmem
          exact hnew ((List.cons.inj hcons).1 ▸ hn')
        have hmem := DirEntry.mem_files hentry l
        simpa [hrest] using hmem
      · have hmem := Listing.mem_files hd (n :: l)
        rw [DirEntry.at?] at hmem
        simpa [beq_false_of_ne hname, Ne.symm hname] using hmem

end

mutual

theorem DirEntry.nodup_files {entry : DirEntry} (h : entry.WellFormed) : entry.files.Nodup := by
  cases entry with
  | other => exact List.pairwise_singleton _ _
  | dir d => exact Listing.nodup_files h

theorem Listing.nodup_files {d : List (OsPath × DirEntry)} (h : Listing.WellFormed d) : (Listing.files d).Nodup := by
  cases d with
  | nil => exact List.nodup_nil
  | cons e d =>
    obtain ⟨name, entry⟩ := e
    obtain ⟨-, hnew, hentry, hd⟩ := h
    rw [Listing.files, List.nodup_append]
    refine ⟨(DirEntry.nodup_files hentry).map fun l l' hcons => (List.cons.inj hcons).2, Listing.nodup_files hd, ?_⟩
    intro l hl l' hl'
    obtain ⟨l₁, -, rfl⟩ := List.mem_map.1 hl
    obtain ⟨n, hn, l₂, rfl⟩ := Listing.cons_of_mem_files hl'
    exact fun hcons => hnew ((List.cons.inj hcons).1 ▸ hn)

end

mutual

theorem DirEntry.isName_of_files {entry : DirEntry} (h : entry.WellFormed) : ∀ l ∈ entry.files, ∀ n ∈ l, OsPath.IsName n := by
  cases entry with
  | other =>
    intro l hl
    obtain rfl := List.mem_singleton.1 hl
    exact fun n hn => by cases hn
  | dir d => exact Listing.isName_of_files h

theorem Listing.isName_of_files {d : List (OsPath × DirEntry)} (h : Listing.WellFormed d) :
    ∀ l ∈ Listing.files d, ∀ n ∈ l, OsPath.IsName n := by
  cases d with
  | nil => exact fun l hl => by cases hl
  | cons e d =>
    obtain ⟨name, entry⟩ := e
    obtain ⟨hname, -, hentry, hd⟩ := h
    intro l hl
    rw [Listing.files, List.mem_append] at hl
    rcases hl with hl | hl
    · obtain ⟨l', hl', rfl⟩ := List.mem_map.1 hl
      exact List.forall_mem_cons.2 ⟨hname, DirEntry.isName_of_files hentry l' hl'⟩
    · exact Listing.isName_of_files hd l hl

end

end NginxAdmin
