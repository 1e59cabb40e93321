import NginxAdmin.Daemon.World

/-!
# What the directory operations do

One lemma for each operation: its answer and the directories after it. An operation that answers with
an error was hit by a fault or was impossible; an existence test that is wrong was hit by a fault.
-/

namespace NginxAdmin.Daemon

namespace Disk

@[simp] theorem setDir_self (d : Disk) (l : Location) (o : Option Dir) : (d.setDir l o).dirs l = o := by
  simp [setDir]

theorem setDir_ne (d : Disk) {l l' : Location} (h : l' ≠ l) (o : Option Dir) :
    (d.setDir l o).dirs l' = d.dirs l' := by
  simp [setDir, h]

@[simp] theorem hold_dirs (d : Disk) (h : Holder) (made : Bool) : (d.hold h made).dirs = d.dirs := rfl

end Disk

variable {t : Nat} {c : Choice} {w w' : World} {l : Location}

theorem exec_exists {r : Bool} (h : (Op.exists l).exec t c w = some (r, w')) :
    w' = w ∧ (r = (w.disk.dirs l).isSome ∨ r = false ∧ w.disk.dirs l ≠ none ∧ c.fault ≠ none) := by
  obtain ⟨rfl, rfl⟩ := Prod.mk.inj (Option.some.inj h)
  refine ⟨rfl, ?_⟩
  cases hf : c.fault with
  | none => exact .inl (Bool.true_and _)
  | some f =>
    cases hd : w.disk.dirs l with
    | none => exact .inl rfl
    | some tree => exact .inr ⟨rfl, Option.some_ne_none _, Option.some_ne_none _⟩

theorem exec_readTree {r : Except String Dir} (h : (Op.readTree l).exec t c w = some (r, w')) :
    w' = w ∧ ((∃ d, r = .ok d ∧ w.disk.dirs l = some d) ∨
      ∃ e, r = .error e ∧ (c.fault ≠ none ∨ w.disk.dirs l = none)) := by
  simp only [Op.exec] at h
  split at h
  · rename_i hf
    cases h
    have hfault : c.fault ≠ none := Option.ne_none_iff_exists'.2 ⟨_, hf⟩
    exact ⟨rfl, .inr ⟨_, rfl, .inl hfault⟩⟩
  · rename_i hd
    cases h; exact ⟨rfl, .inr ⟨_, rfl, .inr hd⟩⟩
  · rename_i hd
    cases h; exact ⟨rfl, .inl ⟨_, rfl, hd⟩⟩

/-- An operation that changes one directory: either `f` acts, or the operation fails. -/
theorem io_modify {r : Except String Unit} {f : Disk → Except String Unit × Disk} {g : Fault → Disk → Disk}
    (h : w.io c f g = (r, w')) :
    (c.fault = none ∧ r = (f w.disk).1 ∧ w'.disk = (f w.disk).2) ∨
      ∃ x, c.fault = some x ∧ r = .error x.message ∧ w'.disk = g x w.disk := by
  unfold World.io at h
  split at h
  · rename_i x hx
    cases h; exact .inr ⟨x, hx, rfl, rfl⟩
  · rename_i hx
    cases h; exact .inl ⟨hx, rfl, rfl⟩

/-- An operation that makes a directory above those of the pipeline. -/
theorem exec_hold {x : Holder} {r : Except String Unit}
    (h : w.io c (fun d => (.ok (), d.hold x true)) (fun f d => d.hold x f.made) = (r, w')) :
    w'.disk.dirs = w.disk.dirs ∧ (r = .ok () ∨ (∃ e, r = .error e) ∧ c.fault ≠ none) := by
  rcases io_modify h with ⟨-, hr, hd⟩ | ⟨f, hf, hr, hd⟩
  · exact ⟨by rw [hd, Disk.hold_dirs], .inl hr⟩
  · exact ⟨by rw [hd, Disk.hold_dirs], .inr ⟨⟨_, hr⟩, by rw [hf]; exact Option.some_ne_none _⟩⟩

theorem exec_removeDirAll {r : Except String Unit} (h : (Op.removeDirAll l).exec t c w = some (r, w')) :
    (∀ l', l' ≠ l → w'.disk.dirs l' = w.disk.dirs l') ∧
      ((r = .ok () ∧ w'.disk.dirs l = none) ∨
        ∃ e, r = .error e ∧ (c.fault ≠ none ∨ w.disk.dirs l = none)) := by
  rcases io_modify (Option.some.inj h) with ⟨-, hr, hd⟩ | ⟨x, hx, hr, hd⟩
  · split at hr
    · rename_i hsome
      rw [if_pos hsome] at hd
      exact ⟨fun l' hl => by rw [hd, Disk.setDir_ne _ hl], .inl ⟨hr, by rw [hd, Disk.setDir_self]⟩⟩
    · rename_i hnone
      rw [if_neg hnone] at hd
      have hmissing : w.disk.dirs l = none := by simpa using hnone
      exact ⟨fun l' _ => by rw [hd], .inr ⟨_, hr, .inr hmissing⟩⟩
  · have hfault : c.fault ≠ none := Option.ne_none_iff_exists'.2 ⟨x, hx⟩
    exact ⟨fun l' hl => by rw [hd, Disk.setDir_ne _ hl], .inr ⟨_, hr, .inl hfault⟩⟩

theorem modifyDir_cases (d : Disk) (f : Dir → Option Dir) :
    (∃ tree tree', d.dirs l = some tree ∧ f tree = some tree' ∧
        d.modifyDir l f = (.ok (), d.setDir l (some tree'))) ∨
      ((d.dirs l).bind f = none ∧ d.modifyDir l f = (.error "No such file or directory (os error 2)", d)) := by
  unfold Disk.modifyDir
  cases hb : (d.dirs l).bind f with
  | none => exact .inr ⟨rfl, rfl⟩
  | some tree' =>
    obtain ⟨tree, ht, hf⟩ := Option.bind_eq_some_iff.1 hb
    exact .inl ⟨tree, tree', ht, hf, rfl⟩

theorem exec_createDirAll {rel : List String} {r : Except String Unit}
    (h : (Op.createDirAll l rel).exec t c w = some (r, w')) :
    (∀ l', l' ≠ l → w'.disk.dirs l' = w.disk.dirs l') ∧
      ((∃ tree, r = .ok () ∧ Dir.mkdirs rel ((w.disk.dirs l).getD []) = some tree ∧
          w'.disk.dirs l = some tree) ∨
        ∃ e, r = .error e ∧ (c.fault ≠ none ∨ Dir.mkdirs rel ((w.disk.dirs l).getD []) = none)) := by
  rcases io_modify (Option.some.inj h) with ⟨-, hr, hd⟩ | ⟨x, hx, hr, hd⟩
  · rcases modifyDir_cases (l := l) ((w.disk.hold (.parentOf l) true).setDir l (some ((w.disk.dirs l).getD [])))
      (Dir.mkdirs rel) with ⟨tree, tree', ht, hf, hm⟩ | ⟨hb, hm⟩
    · rw [Disk.setDir_self, Option.some.injEq] at ht
      rw [hm] at hr hd
      exact ⟨fun l' hl => by rw [hd, Disk.setDir_ne _ hl, Disk.setDir_ne _ hl, Disk.hold_dirs],
        .inl ⟨tree', hr, ht ▸ hf, by rw [hd, Disk.setDir_self]⟩⟩
    · rw [Disk.setDir_self, Option.bind_some] at hb
      rw [hm] at hr hd
      exact ⟨fun l' hl => by rw [hd, Disk.setDir_ne _ hl, Disk.hold_dirs], .inr ⟨_, hr, .inr hb⟩⟩
  · have hfault : c.fault ≠ none := Option.ne_none_iff_exists'.2 ⟨x, hx⟩
    exact ⟨fun l' hl => by rw [hd, Disk.setDir_ne _ hl, Disk.hold_dirs], .inr ⟨_, hr, .inl hfault⟩⟩

theorem exec_writeFile {rel : List String} {content : Bytes} {r : Except String Unit}
    (h : (Op.writeFile l rel content).exec t c w = some (r, w')) :
    (∀ l', l' ≠ l → w'.disk.dirs l' = w.disk.dirs l') ∧
      ((∃ tree tree', r = .ok () ∧ w.disk.dirs l = some tree ∧ Dir.write rel content tree = some tree' ∧
          w'.disk.dirs l = some tree') ∨
        ∃ e, r = .error e ∧ (c.fault ≠ none ∨ (w.disk.dirs l).bind (Dir.write rel content) = none)) := by
  rcases io_modify (Option.some.inj h) with ⟨-, hr, hd⟩ | ⟨x, hx, hr, hd⟩
  · rcases modifyDir_cases (l := l) w.disk (Dir.write rel content) with ⟨tree, tree', ht, hf, hm⟩ | ⟨hb, hm⟩
    · rw [hm] at hr hd
      have hnew : w'.disk.dirs l = some tree' := by rw [hd, Disk.setDir_self]
      exact ⟨fun l' hl => by rw [hd, Disk.setDir_ne _ hl], .inl ⟨tree, tree', hr, ht, hf, hnew⟩⟩
    · rw [hm] at hr hd
      exact ⟨fun l' _ => by rw [hd], .inr ⟨_, hr, .inr hb⟩⟩
  · have hfault : c.fault ≠ none := Option.ne_none_iff_exists'.2 ⟨x, hx⟩
    exact ⟨fun l' hl => by rw [hd, Disk.setDir_ne _ hl], .inr ⟨_, hr, .inl hfault⟩⟩

theorem exec_rename {src dst : Location} (hne : src ≠ dst) {r : Except String Unit}
    (h : (Op.rename src dst).exec t c w = some (r, w')) :
    (∃ tree, r = .ok () ∧ w.disk.dirs src = some tree ∧ w'.disk.dirs src = none ∧ w'.disk.dirs dst = some tree ∧
        ∀ l', l' ≠ src → l' ≠ dst → w'.disk.dirs l' = w.disk.dirs l') ∨
      ∃ e, r = .error e ∧ w'.disk.dirs = w.disk.dirs ∧
        (c.fault ≠ none ∨ w.disk.dirs src = none ∨ w.disk.dirs dst ≠ none) := by
  rcases io_modify (Option.some.inj h) with ⟨-, hr, hd⟩ | ⟨x, hx, hr, hd⟩
  · unfold Disk.rename at hr hd
    cases hs : w.disk.dirs src with
    | none =>
      simp only [hs] at hr hd
      exact .inr ⟨_, hr, by rw [hd], .inr (.inl rfl)⟩
    | some tree =>
      simp only [hs, hne, ↓reduceIte] at hr hd
      have moved : r = .ok () → w'.disk = (w.disk.setDir src none).setDir dst (some tree) →
          ∃ tree', r = .ok () ∧ some tree = some tree' ∧ w'.disk.dirs src = none ∧
            w'.disk.dirs dst = some tree' ∧ ∀ l', l' ≠ src → l' ≠ dst → w'.disk.dirs l' = w.disk.dirs l' := by
        intro hr hd
        refine ⟨tree, hr, rfl, ?_, by rw [hd, Disk.setDir_self], fun l' h₁ h₂ => ?_⟩
        · rw [hd, Disk.setDir_ne _ hne, Disk.setDir_self]
        · rw [hd, Disk.setDir_ne _ h₂, Disk.setDir_ne _ h₁]
      split at hr
      · rename_i hdst
        simp only [hdst] at hd
        exact .inl (moved hr hd)
      · rename_i hdst
        simp only [hdst] at hd
        exact .inl (moved hr hd)
      · rename_i hdst
        simp only [hdst] at hd
        have hthere : w.disk.dirs dst ≠ none := by rw [hdst]; exact Option.some_ne_none _
        exact .inr ⟨_, hr, by rw [hd], .inr (.inr hthere)⟩
  · have hfault : c.fault ≠ none := Option.ne_none_iff_exists'.2 ⟨x, hx⟩
    exact .inr ⟨_, hr, by rw [hd], .inl hfault⟩

end NginxAdmin.Daemon
