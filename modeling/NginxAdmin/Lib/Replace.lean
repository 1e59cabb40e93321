import NginxAdmin.Lib.Regex

/-!
# Replacing the matches of an expression

`Grouped.Rewrites g mark l r out`: reading `r` after the text `l`, every match that the matcher finds is replaced by
something that `mark` allows, and the rest is copied. `rewrites_replaceAux` says that a replacement is such a rewriting;
what holds of replacements is proved by induction on it.
-/

namespace NginxAdmin.Regex

theorem head?_flatMap_of {α β : Type} {f : α → List β} {xs : List α} {y : β}
    (h : ∀ x ∈ xs, f x = [] ∨ (f x).head? = some y) (hex : ∃ x ∈ xs, f x ≠ []) : (xs.flatMap f).head? = some y := by
  induction xs with
  | nil =>
    obtain ⟨x, hx, -⟩ := hex
    cases hx
  | cons x xs ih =>
    rw [List.flatMap_cons]
    rcases h x List.mem_cons_self with hx | hx
    · rw [hx, List.nil_append]
      refine ih (fun z hz => h z (List.mem_cons_of_mem x hz)) ?_
      obtain ⟨z, hz, hne⟩ := hex
      rcases List.mem_cons.1 hz with rfl | hz
      · exact absurd hx hne
      · exact ⟨z, hz, hne⟩
    · rw [List.head?_append, hx]
      rfl

section Preferred

variable {a b : Regex} {l r : List Char} {p : Char → Bool}

theorem run_eq_nil (h : ∀ w r', r = w ++ r' → ¬ Matches a l w r') : run a l r = [] := by
  refine List.eq_nil_iff_forall_not_mem.2 fun q hq => ?_
  obtain ⟨w, hr, -, hM⟩ := (mem_run a l r q).1 hq
  exact h w q.2 hr hM

theorem head_run_alt_left {q : List Char × List Char} (ha : (run a l r).head? = some q) :
    (run (alt a b) l r).head? = some q := by
  rw [run, List.head?_append, ha]
  rfl

theorem head_run_alt_right (ha : run a l r = []) : (run (alt a b) l r).head? = (run b l r).head? := by
  rw [run, ha, List.nil_append]

theorem head_run_seq {q e : List Char × List Char} (ha : (run a l r).head? = some q)
    (hb : (run b q.1 q.2).head? = some e) : (run (seq a b) l r).head? = some e := by
  obtain ⟨rest, hrest⟩ := List.head?_eq_some_iff.1 ha
  rw [run, hrest, List.flatMap_cons, List.head?_append, hb]
  rfl

/-- A greedy star of characters takes all it can first. -/
theorem head_iterate_char {n : Nat} (hn : r.length ≤ n) :
    (iterate true (run (char p)) n l r).head? = some ((r.takeWhile p).reverse ++ l, r.dropWhile p) := by
  induction n generalizing l r with
  | zero =>
    obtain rfl : r = [] := List.length_eq_zero_iff.1 (Nat.le_zero.1 hn)
    rfl
  | succ n ih =>
    cases r with
    | nil => rfl
    | cons c r =>
      rw [List.takeWhile_cons, List.dropWhile_cons]
      by_cases hc : p c = true
      · have hlt : decide (r.length < (c :: r).length) = true := decide_eq_true (Nat.lt_succ_self _)
        simp only [iterate, run, hc, if_true, List.filter_cons, hlt, List.filter_nil, List.flatMap_cons,
          List.flatMap_nil, List.append_nil, List.head?_append, ih (Nat.le_of_succ_le_succ hn), Option.some_or]
        simp
      · simp [iterate, run, hc]

theorem head_run_star_char :
    (run (star (char p)) l r).head? = some ((r.takeWhile p).reverse ++ l, r.dropWhile p) :=
  head_iterate_char (Nat.le_refl _)

theorem head_run_plus_char {c : Char} (hc : p c = true) : (run (plus (char p)) l (c :: r)).head? =
    some (((c :: r).takeWhile p).reverse ++ l, (c :: r).dropWhile p) := by
  have hchar : (run (char p) l (c :: r)).head? = some (c :: l, r) := by rw [run, if_pos hc]; rfl
  rw [plus, head_run_seq hchar head_run_star_char, List.takeWhile_cons, List.dropWhile_cons, if_pos hc, if_pos hc]
  simp

end Preferred

/-- The text around a word does not matter. -/
def Plain : Regex → Prop
  | nil | char _ => True
  | seq a b | alt a b => Plain a ∧ Plain b
  | rep _ a => Plain a
  | look _ => False

theorem Plain.matches_iff {a : Regex} (h : Plain a) {l r l' r' w : List Char} : Matches a l w r ↔ Matches a l' w r' := by
  suffices hmp : ∀ l r l' r' w, Matches a l w r → Matches a l' w r' from ⟨hmp l r l' r' w, hmp l' r' l r w⟩
  intro l r l' r' w hM
  induction a generalizing l r l' r' w with
  | nil => exact hM
  | char p => exact hM
  | seq a b iha ihb =>
    obtain ⟨w₁, w₂, rfl, h₁, h₂⟩ := hM
    exact ⟨w₁, w₂, rfl, iha h.1 _ _ _ _ _ h₁, ihb h.2 _ _ _ _ _ h₂⟩
  | alt a b iha ihb => exact hM.imp (iha h.1 _ _ _ _ _) (ihb h.2 _ _ _ _ _)
  | rep greedy a ih =>
    replace hM : Star (Matches a) l w r := hM
    show Star (Matches a) l' w r'
    induction hM generalizing l' with
    | nil => exact .nil
    | cons hw hM _ ih' => exact .cons hw (ih h _ _ _ _ _ hM) (ih' _)
  | look p => exact h.elim

theorem plain_literalBy (eq : Char → Char → Bool) (cs : List Char) : Plain (literalBy eq cs) := by
  induction cs with
  | nil => exact trivial
  | cons c cs ih => exact ⟨trivial, ih⟩

theorem plain_alts {as : List Regex} (h : ∀ a ∈ as, Plain a) : Plain (alts as) := by
  induction as with
  | nil => exact trivial
  | cons a as ih => exact ⟨h a List.mem_cons_self, ih fun b hb => h b (List.mem_cons_of_mem a hb)⟩

namespace Grouped

variable {g : Grouped} {f : List Char → List Char → List Char}

/-- A match that is found is a match, with what its group captured. -/
theorem first_spec {l r key : List Char} {n : Nat} (h : g.first l r = some (key, n)) :
    ∃ w₁ w₃ r', r = w₁ ++ (key ++ (w₃ ++ r')) ∧ n = (w₁ ++ (key ++ w₃)).length ∧
      Matches g.before l w₁ (key ++ (w₃ ++ r')) ∧ Matches g.key (w₁.reverse ++ l) key (w₃ ++ r') ∧
      Matches g.rest (key.reverse ++ (w₁.reverse ++ l)) w₃ r' := by
  have hmem := List.mem_of_mem_head? h
  obtain ⟨q, hq, hmem⟩ := List.mem_flatMap.1 hmem
  obtain ⟨k, hk, hmem⟩ := List.mem_flatMap.1 hmem
  obtain ⟨e, he, heq⟩ := List.mem_map.1 hmem
  obtain ⟨w₁, hr, hl₁, h₁⟩ := (mem_run g.before l r q).1 hq
  obtain ⟨w₂, hr₂, hl₂, h₂⟩ := (mem_run g.key q.1 q.2 k).1 hk
  obtain ⟨w₃, hr₃, hl₃, h₃⟩ := (mem_run g.rest k.1 k.2 e).1 he
  obtain ⟨hkey, hn⟩ := Prod.mk.inj heq
  have hw₂ : w₂ = key := by
    rw [← hkey, hr₂, List.length_append, Nat.add_sub_cancel, List.take_left]
  subst hw₂
  rw [hr₃] at hr₂ h₂
  rw [hl₁] at h₂ hl₂
  rw [hl₂] at h₃
  rw [hr₂] at hr h₁
  refine ⟨w₁, w₃, e.2, hr, ?_, h₁, h₂, h₃⟩
  rw [← hn, hr]
  simp only [List.length_append]
  omega

theorem first_eq_none_iff {l r : List Char} :
    g.first l r = none ↔ ∀ w r', r = w ++ r' → ¬ Matches g.regex l w r' := by
  constructor
  · rintro h w r' rfl ⟨w₁, _, rfl, h₁, w₂, w₃, rfl, h₂, h₃⟩
    rw [first, List.head?_eq_none_iff, List.flatMap_eq_nil_iff] at h
    have hq := (mem_run g.before l (w₁ ++ (w₂ ++ w₃) ++ r') (w₁.reverse ++ l, w₂ ++ (w₃ ++ r'))).2
      ⟨w₁, by simp, rfl, by simpa using h₁⟩
    have hk := (mem_run g.key (w₁.reverse ++ l) (w₂ ++ (w₃ ++ r')) (w₂.reverse ++ (w₁.reverse ++ l), w₃ ++ r')).2
      ⟨w₂, rfl, rfl, h₂⟩
    have he := (mem_run g.rest (w₂.reverse ++ (w₁.reverse ++ l)) (w₃ ++ r')
      (w₃.reverse ++ (w₂.reverse ++ (w₁.reverse ++ l)), r')).2 ⟨w₃, rfl, rfl, h₃⟩
    have hnil := List.flatMap_eq_nil_iff.1 (h _ hq) _ hk
    rw [List.map_eq_nil_iff] at hnil
    simp only at hnil
    rw [hnil] at he
    cases he
  · intro h
    rcases hm : g.first l r with _ | m
    · rfl
    · obtain ⟨w, r', hr, hM⟩ := matches_of_first hm
      exact absurd hM (h w r' hr)

/-! ### A replacement, match after match -/

inductive Rewrites (g : Grouped) (mark : List Char → List Char → List Char → Prop) :
    List Char → List Char → List Char → Prop where
  | done {l : List Char} : Rewrites g mark l [] []
  /-- No match is found here, or an empty one, and the character is copied. -/
  | copy {l r out : List Char} {c : Char} (hfirst : ∀ key n, g.first l (c :: r) ≠ some (key, n + 1))
      (h : Rewrites g mark (c :: l) r out) : Rewrites g mark l (c :: r) (c :: out)
  /-- A match `w` is found here, with the group `key`. -/
  | hit {l w r key m out : List Char} (hw : w ≠ []) (hfirst : g.first l (w ++ r) = some (key, w.length))
      (hm : mark key l m) (h : Rewrites g mark (w.reverse ++ l) r out) : Rewrites g mark l (w ++ r) (m ++ out)

theorem replaceAux_skip (w l r : List Char) :
    g.replaceAux f w.length l (w ++ r) = g.replaceAux f 0 (w.reverse ++ l) r := by
  induction w generalizing l with
  | nil => rfl
  | cons c w ih =>
    rw [List.length_cons, List.cons_append, replaceAux, ih]
    simp

theorem replaceAux_copy {l r : List Char} {c : Char} (h : ∀ key n, g.first l (c :: r) ≠ some (key, n + 1)) :
    g.replaceAux f 0 l (c :: r) = c :: g.replaceAux f 0 (c :: l) r := by
  rw [replaceAux]
  split
  · rename_i key n hfirst
    exact absurd hfirst (h key n)
  · rfl

theorem replaceAux_hit {l w r key : List Char} (hw : w ≠ []) (h : g.first l (w ++ r) = some (key, w.length)) :
    g.replaceAux f 0 l (w ++ r) = f key l ++ g.replaceAux f 0 (w.reverse ++ l) r := by
  obtain ⟨c, w, rfl⟩ := List.exists_cons_of_ne_nil hw
  rw [List.cons_append, List.length_cons] at h
  rw [List.cons_append, replaceAux, h]
  show f key l ++ g.replaceAux f w.length (c :: l) (w ++ r) = _
  rw [replaceAux_skip]
  simp

/-- A replacement replaces every match that is found by what `f` makes of it. -/
theorem rewrites_replaceAux (f : List Char → List Char → List Char) (l r : List Char) :
    Rewrites g (fun key l m => m = f key l) l r (g.replaceAux f 0 l r) := by
  induction hn : r.length using Nat.strong_induction_on generalizing l r with
  | _ n ih =>
    subst hn
    cases r with
    | nil => exact .done
    | cons c r =>
      by_cases hfirst : ∃ key n, g.first l (c :: r) = some (key, n + 1)
      · obtain ⟨key, n, hfirst⟩ := hfirst
        obtain ⟨w₁, w₃, r', hr, hlen, -⟩ := first_spec hfirst
        have hw : w₁ ++ (key ++ w₃) ≠ [] := by
          intro hnil
          rw [hnil] at hlen
          cases hlen
        have hr' : c :: r = (w₁ ++ (key ++ w₃)) ++ r' := by rw [hr]; simp
        rw [hr'] at hfirst ih ⊢
        rw [hlen] at hfirst
        rw [replaceAux_hit hw hfirst]
        refine .hit hw hfirst rfl (ih _ ?_ _ _ rfl)
        have := List.length_pos_iff.2 hw
        rw [List.length_append]
        omega
      · simp only [not_exists] at hfirst
        rw [replaceAux_copy hfirst]
        exact .copy hfirst (ih _ (by simp) _ _ rfl)

theorem Rewrites.mono {mark mark' : List Char → List Char → List Char → Prop} {l r out : List Char}
    (h : Rewrites g mark l r out)
    (hmark : ∀ key l m w r', g.first l (w ++ r') = some (key, w.length) → mark key l m → mark' key l m) :
    Rewrites g mark' l r out := by
  induction h with
  | done => exact .done
  | copy hfirst _ ih => exact .copy hfirst ih
  | hit hw hfirst hm _ ih => exact .hit hw hfirst (hmark _ _ _ _ _ hfirst hm) ih

/-- The matches that a replacement finds: the group and the text before, nearest character first. -/
def foundAux (g : Grouped) : Nat → List Char → List Char → List (List Char × List Char)
  | _, _, [] => []
  | skip + 1, l, c :: r => foundAux g skip (c :: l) r
  | 0, l, c :: r =>
    match g.first l (c :: r) with
    | some (key, n + 1) => (key, l) :: foundAux g n (c :: l) r
    | _ => foundAux g 0 (c :: l) r

def found (g : Grouped) (s : String) : List (List Char × List Char) := g.foundAux 0 [] s.toList

theorem foundAux_skip (w l r : List Char) :
    g.foundAux w.length l (w ++ r) = g.foundAux 0 (w.reverse ++ l) r := by
  induction w generalizing l with
  | nil => rfl
  | cons c w ih =>
    rw [List.length_cons, List.cons_append, foundAux, ih]
    simp

theorem foundAux_copy {l r : List Char} {c : Char} (h : ∀ key n, g.first l (c :: r) ≠ some (key, n + 1)) :
    g.foundAux 0 l (c :: r) = g.foundAux 0 (c :: l) r := by
  rw [foundAux]
  split
  · rename_i key n hfirst
    exact absurd hfirst (h key n)
  · rfl

theorem foundAux_hit {l w r key : List Char} (hw : w ≠ []) (h : g.first l (w ++ r) = some (key, w.length)) :
    g.foundAux 0 l (w ++ r) = (key, l) :: g.foundAux 0 (w.reverse ++ l) r := by
  obtain ⟨c, w, rfl⟩ := List.exists_cons_of_ne_nil hw
  rw [List.cons_append, List.length_cons] at h
  rw [List.cons_append, foundAux, h]
  show (key, l) :: g.foundAux w.length (c :: l) (w ++ r) = _
  rw [foundAux_skip]
  simp

theorem first_of_mem_foundAux {l r : List Char} {p : List Char × List Char} (h : p ∈ g.foundAux 0 l r) :
    ∃ r' n, g.first p.2 r' = some (p.1, n) := by
  have hrewrites := rewrites_replaceAux (g := g) (fun key _ => key) l r
  generalize g.replaceAux (fun key _ => key) 0 l r = out at hrewrites
  induction hrewrites with
  | done => cases h
  | copy hfirst _ ih =>
    rw [foundAux_copy hfirst] at h
    exact ih h
  | hit hw hfirst _ _ ih =>
    rw [foundAux_hit hw hfirst] at h
    rcases List.mem_cons.1 h with rfl | h
    · exact ⟨_, _, hfirst⟩
    · exact ih h

/-- Where one rewriting copies, so does every other; where one finds a match, so does every other. -/
theorem Rewrites.copy_inv {mark : List Char → List Char → List Char → Prop} {l r out : List Char} {c : Char}
    (hfirst : ∀ key n, g.first l (c :: r) ≠ some (key, n + 1)) (h : Rewrites g mark l (c :: r) out) :
    ∃ out', out = c :: out' ∧ Rewrites g mark (c :: l) r out' := by
  generalize hr : c :: r = r' at h
  cases h with
  | done => cases hr
  | copy _ h =>
    obtain ⟨rfl, rfl⟩ := List.cons.inj hr
    exact ⟨_, rfl, h⟩
  | @hit _ w _ key _ _ hw hfirst' _ _ =>
    obtain ⟨d, w, rfl⟩ := List.exists_cons_of_ne_nil hw
    rw [← hr] at hfirst'
    exact absurd hfirst' (hfirst key w.length)

theorem Rewrites.hit_inv {mark : List Char → List Char → List Char → Prop} {l w r key out : List Char} (hw : w ≠ [])
    (hfirst : g.first l (w ++ r) = some (key, w.length)) (h : Rewrites g mark l (w ++ r) out) :
    ∃ m out', out = m ++ out' ∧ mark key l m ∧ Rewrites g mark (w.reverse ++ l) r out' := by
  generalize hr : w ++ r = r' at h
  cases h with
  | done => exact absurd (List.append_eq_nil_iff.1 hr).1 hw
  | @copy _ r'' _ c hcopy _ =>
    obtain ⟨d, w, rfl⟩ := List.exists_cons_of_ne_nil hw
    rw [hr] at hfirst
    exact absurd hfirst (hcopy key w.length)
  | @hit _ w' r'' key' m out' _ hfirst' hm h =>
    rw [hr, hfirst', Option.some.injEq, Prod.mk.injEq] at hfirst
    obtain ⟨rfl, hlen⟩ := hfirst
    obtain ⟨rfl, rfl⟩ := List.append_inj hr hlen.symm
    exact ⟨m, out', rfl, hm, h⟩

/-- A replacement is a rewriting with other marks exactly when each of its own marks is allowed, provided that no other
mark could be read at the same place. -/
theorem rewrites_replaceAux_iff {mark : List Char → List Char → List Char → Prop} {l r : List Char}
    (hread : ∀ key l m w r' x y, g.first l (w ++ r') = some (key, w.length) → mark key l m → f key l ++ x = m ++ y →
      f key l = m) :
    Rewrites g mark l r (g.replaceAux f 0 l r) ↔ ∀ p ∈ g.foundAux 0 l r, mark p.1 p.2 (f p.1 p.2) := by
  have h := rewrites_replaceAux (g := g) f l r
  generalize g.replaceAux f 0 l r = out at h
  induction h with
  | done => exact ⟨fun _ p hp => absurd hp List.not_mem_nil, fun _ => .done⟩
  | copy hfirst h ih =>
    rw [foundAux_copy hfirst]
    refine Iff.trans ⟨fun h' => ?_, fun h' => .copy hfirst h'⟩ ih
    obtain ⟨out', heq, h'⟩ := h'.copy_inv hfirst
    rw [(List.cons.inj heq).2]
    exact h'
  | @hit l w r key m out hw hfirst hm h ih =>
    subst hm
    rw [foundAux_hit hw hfirst, List.forall_mem_cons]
    refine Iff.trans ⟨fun h' => ?_, fun h' => .hit hw hfirst h'.1 h'.2⟩ (and_congr_right fun _ => ih)
    obtain ⟨m, out', heq, hm, h'⟩ := h'.hit_inv hw hfirst
    obtain rfl := hread key l m w r out out' hfirst hm heq
    obtain rfl := List.append_cancel_left heq
    exact ⟨hm, h'⟩

/-- A part of the text where no match begins is copied. -/
theorem replaceAux_append {l u r : List Char}
    (h : ∀ x c y, u = x ++ c :: y → ∀ key n, g.first (x.reverse ++ l) (c :: (y ++ r)) ≠ some (key, n + 1)) :
    g.replaceAux f 0 l (u ++ r) = u ++ g.replaceAux f 0 (u.reverse ++ l) r := by
  induction u generalizing l with
  | nil => rfl
  | cons c u ih =>
    have hrest := ih (l := c :: l) fun x d y hu key n => by
      have hnext := h (c :: x) d y (by rw [hu]; rfl) key n
      simpa using hnext
    have hhead : ∀ key n, g.first l (c :: (u ++ r)) ≠ some (key, n + 1) := h [] c u rfl
    rw [List.cons_append, replaceAux_copy hhead, hrest]
    simp

/-- A class of characters that the marks do not leave. -/
theorem Rewrites.forall_mem {mark : List Char → List Char → List Char → Prop} {l r out : List Char} {p : Char → Prop}
    (h : Rewrites g mark l r out) (hmark : ∀ key l m, (∀ c ∈ key, p c) → mark key l m → ∀ c ∈ m, p c)
    (hr : ∀ c ∈ r, p c) : ∀ c ∈ out, p c := by
  induction h with
  | done => exact hr
  | copy _ _ ih =>
    rw [List.forall_mem_cons] at hr ⊢
    exact ⟨hr.1, ih hr.2⟩
  | hit _ hfirst hm _ ih =>
    obtain ⟨w₁, w₃, r', hwr, -⟩ := first_spec hfirst
    rw [List.forall_mem_append]
    refine ⟨hmark _ _ _ (fun c hc => hr c ?_) hm, ih fun c hc => hr c (List.mem_append_right _ hc)⟩
    rw [hwr]
    simp [hc]

theorem Rewrites.ne_nil {mark : List Char → List Char → List Char → Prop} {l r out : List Char}
    (h : Rewrites g mark l r out) (hmark : ∀ key l m, mark key l m → m ≠ []) (hr : r ≠ []) : out ≠ [] := by
  cases h with
  | done => exact absurd rfl hr
  | copy _ _ => exact List.cons_ne_nil _ _
  | hit _ _ hm _ => exact List.append_ne_nil_of_left_ne_nil (hmark _ _ _ hm) _

end Grouped

end NginxAdmin.Regex
