import Mathlib.Data.List.Forall2
import NginxAdmin.Lib.Replace
import NginxAdmin.Lib.Text

/-!
# Runs without backtracking

Where the rest of an expression cannot start inside the class of a star, only the longest run of the star counts
(`run_star_seq`); the results of such an expression are computed from the text. `replaceAux_cut` splits a replacement where
no match crosses, `replaceAux_congr` forgets what stands before a text but its last character.
-/

namespace NginxAdmin.Regex

variable {a b c : Regex} {l r : List Char} {p : Char → Bool}

/-- A text is a run of a class and what follows it. -/
theorem exists_span (p : Char → Bool) (z : List Char) :
    ∃ w z', z = w ++ z' ∧ (∀ c ∈ w, p c = true) ∧ ∀ c, z'.head? = some c → p c = false := by
  induction z with
  | nil => exact ⟨[], [], rfl, List.forall_mem_nil _, fun c hc => by cases hc⟩
  | cons d z ih =>
    by_cases hd : p d = true
    · obtain ⟨w, z', rfl, hw, hz'⟩ := ih
      exact ⟨d :: w, z', rfl, List.forall_mem_cons.2 ⟨hd, hw⟩, hz'⟩
    · refine ⟨[], d :: z, rfl, List.forall_mem_nil _, fun c hc => ?_⟩
      obtain rfl := Option.some.inj hc
      simpa using hd

/-- There is one place where the first character of a class stands. -/
theorem append_stop_inj {u u' y y' : List Char} {d d' : Char} (hu : ∀ c ∈ u, p c = false) (hu' : ∀ c ∈ u', p c = false)
    (hd : p d = true) (hd' : p d' = true) (h : u ++ d :: y = u' ++ d' :: y') : u = u' ∧ d :: y = d' :: y' := by
  induction u generalizing u' with
  | nil =>
    cases u' with
    | nil => exact ⟨rfl, h⟩
    | cons e u' =>
      obtain ⟨rfl, -⟩ := List.cons.inj h
      rw [hu' d List.mem_cons_self] at hd
      cases hd
  | cons e u ih =>
    cases u' with
    | nil =>
      obtain ⟨rfl, -⟩ := List.cons.inj h
      rw [hu e List.mem_cons_self] at hd'
      cases hd'
    | cons e' u' =>
      obtain ⟨rfl, htail⟩ := List.cons.inj h
      obtain ⟨rfl, hy⟩ := ih (fun c hc => hu c (List.mem_cons_of_mem e hc))
        (fun c hc => hu' c (List.mem_cons_of_mem e hc)) htail
      exact ⟨rfl, hy⟩

theorem run_seq_assoc : run (seq (seq a b) c) l r = run (seq a (seq b c)) l r := by
  simp only [run, List.flatMap_assoc]

theorem run_opt_seq : run (seq (opt a) b) l r = run (seq a b) l r ++ run b l r := by
  simp only [opt, run, List.flatMap_append, List.flatMap_cons, List.flatMap_nil, List.append_nil]

theorem iterate_char_stop {n : Nat} (h : r.head?.any p = false) : iterate true (run (char p)) n l r = [(l, r)] := by
  cases n with
  | zero => rfl
  | succ n =>
    cases r with
    | nil => rfl
    | cons d r =>
      have hd : p d = false := h
      simp [iterate, run, hd]

theorem iterate_char_cons {n : Nat} {d : Char} (hd : p d = true) :
    iterate true (run (char p)) (n + 1) l (d :: r) = iterate true (run (char p)) n (d :: l) r ++ [(l, d :: r)] := by
  simp [iterate, run, hd]

theorem run_star_cons {d : Char} (hd : p d = true) :
    run (star (char p)) l (d :: r) = run (star (char p)) (d :: l) r ++ [(l, d :: r)] := iterate_char_cons hd

/-- What follows a star of characters, and cannot start inside it, starts behind its longest run. -/
theorem run_star_seq (hb : ∀ l r, r.head?.any p = true → run b l r = []) :
    run (seq (star (char p)) b) l r = run b ((r.takeWhile p).reverse ++ l) (r.dropWhile p) := by
  induction r generalizing l with
  | nil =>
    show (run (star (char p)) l []).flatMap _ = _
    rw [run, iterate_char_stop rfl]
    exact List.append_nil _
  | cons d r ih =>
    by_cases hd : p d = true
    · have hstop : run b l (d :: r) = [] := hb l (d :: r) hd
      have hseq : run (seq (star (char p)) b) l (d :: r) = run (seq (star (char p)) b) (d :: l) r ++ run b l (d :: r) := by
        rw [run, run_star_cons hd, List.flatMap_append, List.flatMap_cons, List.flatMap_nil, List.append_nil]
        rfl
      rw [hseq, hstop, List.append_nil, ih, List.takeWhile_cons_of_pos hd, List.dropWhile_cons_of_pos hd]
      simp
    · have hstop : (d :: r).head?.any p = false := by simpa using hd
      rw [List.takeWhile_cons_of_neg hd, List.dropWhile_cons_of_neg hd, run, run, iterate_char_stop hstop,
        List.flatMap_cons, List.flatMap_nil, List.append_nil]
      rfl

theorem run_char_seq {d : Char} (hd : p d = true) : run (seq (char p) b) l (d :: r) = run b (d :: l) r := by
  rw [run, run, if_pos hd, List.flatMap_cons, List.flatMap_nil, List.append_nil]

theorem run_char_seq_stop (h : r.head?.any p = false) : run (seq (char p) b) l r = [] := by
  cases r with
  | nil => rfl
  | cons d r =>
    have hd : ¬ p d = true := by simpa using h
    rw [run, run, if_neg hd, List.flatMap_nil]

theorem run_plus_seq (hb : ∀ l r, r.head?.any p = true → run b l r = []) (h : r.head?.any p = true) :
    run (seq (plus (char p)) b) l r = run b ((r.takeWhile p).reverse ++ l) (r.dropWhile p) := by
  cases r with
  | nil => cases h
  | cons d r =>
    have hd : p d = true := h
    rw [plus, run_seq_assoc, run_char_seq hd, run_star_seq hb, List.takeWhile_cons_of_pos hd, List.dropWhile_cons_of_pos hd]
    simp

theorem run_plus_seq_stop (h : r.head?.any p = false) : run (seq (plus (char p)) b) l r = [] := by
  rw [plus, run_seq_assoc, run_char_seq_stop h]

theorem run_literalBy {eq : Char → Char → Bool} {cs w : List Char} (h : List.Forall₂ (fun c d => eq c d = true) cs w) :
    run (literalBy eq cs) l (w ++ r) = [(w.reverse ++ l, r)] := by
  induction h generalizing l with
  | nil => rfl
  | cons hcd _ ih =>
    rw [literalBy, List.cons_append, run_char_seq hcd, ih]
    simp

/-- A word that is read on a text with a character that it does not have ends before that character. -/
theorem prefix_of_not_mem {q : Char → Prop} {w z t : List Char} {d : Char} (h : w ++ r = z ++ t) (hw : ∀ c ∈ w, q c)
    (hd : d ∈ z) (hq : ¬ q d) : ∃ z', z = w ++ z' := by
  obtain ⟨z', hz, -⟩ | ⟨t', hw', -⟩ := List.append_eq_append_iff.1 h
  · exact ⟨z', hz⟩
  · exact absurd (hw d (by rw [hw']; exact List.mem_append_left t' hd)) hq

/-! ### The text before -/

/-- Only the last character before the text matters. -/
def Local : Regex → Prop
  | nil | char _ => True
  | seq a b | alt a b => Local a ∧ Local b
  | rep _ a => Local a
  | look p => ∀ l l' r, l.head? = l'.head? → p l r = p l' r

/-- The same text after, and the same character before. -/
def SameEnd (q q' : List Char × List Char) : Prop := q.2 = q'.2 ∧ q.1.head? = q'.1.head?

theorem rel_iterate {greedy : Bool} {f : List Char → List Char → List (List Char × List Char)} {l l' : List Char} {n : Nat}
    (hf : ∀ l l' r, l.head? = l'.head? → List.Forall₂ SameEnd (f l r) (f l' r)) (h : l.head? = l'.head?) :
    List.Forall₂ SameEnd (iterate greedy f n l r) (iterate greedy f n l' r) := by
  induction n generalizing l l' r with
  | zero => exact .cons ⟨rfl, h⟩ .nil
  | succ n ih =>
    have hkept : List.Forall₂ SameEnd ((f l r).filter fun q => decide (q.2.length < r.length))
        ((f l' r).filter fun q => decide (q.2.length < r.length)) := by
      refine List.rel_filter (fun q q' hq => ?_) (hf l l' r h)
      show decide (q.2.length < r.length) = true ↔ decide (q'.2.length < r.length) = true
      rw [hq.1]
    have hiter : Relator.LiftFun SameEnd (List.Forall₂ SameEnd) (fun q => iterate greedy f n q.1 q.2)
        (fun q => iterate greedy f n q.1 q.2) := by
      intro q q' hq
      show List.Forall₂ SameEnd (iterate greedy f n q.1 q.2) (iterate greedy f n q'.1 q'.2)
      rw [hq.1]
      exact ih hq.2
    have hmore := List.rel_flatMap hkept hiter
    have hhere : List.Forall₂ SameEnd [(l, r)] [(l', r)] := .cons ⟨rfl, h⟩ .nil
    cases greedy with
    | true => exact List.rel_append hmore hhere
    | false => exact .cons ⟨rfl, h⟩ hmore

theorem Local.run (ha : Local a) {l l' : List Char} (h : l.head? = l'.head?) :
    List.Forall₂ SameEnd (run a l r) (run a l' r) := by
  induction a generalizing l l' r with
  | nil => exact .cons ⟨rfl, h⟩ .nil
  | char p =>
    cases r with
    | nil => exact .nil
    | cons d r =>
      rw [Regex.run, Regex.run]
      split
      · exact .cons ⟨rfl, rfl⟩ .nil
      · exact .nil
  | seq a b iha ihb =>
    exact List.rel_flatMap (iha ha.1 h) fun q q' hq => by rw [hq.1]; exact ihb ha.2 hq.2
  | alt a b iha ihb => exact List.rel_append (iha ha.1 h) (ihb ha.2 h)
  | rep greedy a ih => exact rel_iterate (fun l l' r h => ih ha h) h
  | look p =>
    rw [Regex.run, Regex.run, ha l l' r h]
    split
    · exact .cons ⟨rfl, h⟩ .nil
    · exact .nil

theorem flatMap_of_sameEnd {α : Type} {qs qs' : List (List Char × List Char)} {f : List Char × List Char → List α}
    (h : List.Forall₂ SameEnd qs qs') (hf : ∀ q q', SameEnd q q' → f q = f q') : qs.flatMap f = qs'.flatMap f := by
  induction h with
  | nil => rfl
  | cons hq _ ih => rw [List.flatMap_cons, List.flatMap_cons, hf _ _ hq, ih]

theorem map_of_sameEnd {α : Type} {qs qs' : List (List Char × List Char)} {f : List Char × List Char → α}
    (h : List.Forall₂ SameEnd qs qs') (hf : ∀ q q', SameEnd q q' → f q = f q') : qs.map f = qs'.map f := by
  induction h with
  | nil => rfl
  | cons hq _ ih => rw [List.map_cons, List.map_cons, hf _ _ hq, ih]

theorem local_literalBy (eq : Char → Char → Bool) (cs : List Char) : Local (literalBy eq cs) := by
  induction cs with
  | nil => exact trivial
  | cons c cs ih => exact ⟨trivial, ih⟩

theorem local_wordBoundaryI : Local wordBoundaryI := by
  intro l l' r h
  show (l.head?.any isWordI != _) = (l'.head?.any isWordI != _)
  rw [h]

namespace Grouped

variable {g : Grouped} {f : List Char → List Char → List Char}

def Local (g : Grouped) : Prop := g.before.Local ∧ g.key.Local ∧ g.rest.Local

theorem Local.first (hg : g.Local) {l l' : List Char} (h : l.head? = l'.head?) : g.first l r = g.first l' r := by
  refine congrArg List.head? (flatMap_of_sameEnd (hg.1.run h) fun q q' hq => ?_)
  rw [hq.1]
  refine flatMap_of_sameEnd (hg.2.1.run hq.2) fun k k' hk => ?_
  rw [hk.1]
  refine map_of_sameEnd (hg.2.2.run hk.2) fun e e' he => ?_
  rw [he.1]

/-- The replacement does not depend on the text before but for its last character. -/
theorem replaceAux_congr (hg : g.Local) (hf : ∀ key l l', f key l = f key l') {l l' : List Char} (h : l.head? = l'.head?)
    (r : List Char) : g.replaceAux f 0 l r = g.replaceAux f 0 l' r := by
  have hrewrites := rewrites_replaceAux (g := g) f l r
  generalize g.replaceAux f 0 l r = out at hrewrites
  induction hrewrites generalizing l' with
  | done => rfl
  | @copy l r out d hfirst _ ih =>
    have hlast : (d :: l).head? = (d :: l').head? := rfl
    rw [replaceAux_copy fun key n => hg.first h ▸ hfirst key n, ← ih hlast]
  | @hit l w r key m out hw hfirst hm _ ih =>
    have hlast : (w.reverse ++ l).head? = (w.reverse ++ l').head? := by
      rw [List.head?_append_of_ne_nil _ (by simpa using hw), List.head?_append_of_ne_nil _ (by simpa using hw)]
    rw [replaceAux_hit hw (hg.first h ▸ hfirst), hm, hf key l l', ← ih hlast]

/-- A replacement of two texts one after the other, where no match of the first sees the second. -/
theorem replaceAux_cut {u v : List Char}
    (h : ∀ x y, u = x ++ y → y ≠ [] → g.first (x.reverse ++ l) (y ++ v) = g.first (x.reverse ++ l) y) :
    g.replaceAux f 0 l (u ++ v) = g.replaceAux f 0 l u ++ g.replaceAux f 0 (u.reverse ++ l) v := by
  have hrewrites := rewrites_replaceAux (g := g) f l u
  generalize g.replaceAux f 0 l u = out at hrewrites
  induction hrewrites with
  | done => rfl
  | @copy l u out d hfirst _ ih =>
    have hfirst' : ∀ key n, g.first l (d :: (u ++ v)) ≠ some (key, n + 1) := by
      intro key n
      have heq := h [] (d :: u) rfl (List.cons_ne_nil d u)
      rw [List.reverse_nil, List.nil_append] at heq
      rw [← List.cons_append, heq]
      exact hfirst key n
    have hrest := ih fun x y hu hy => by
      have hnext := h (d :: x) y (by rw [hu]; rfl) hy
      simpa using hnext
    rw [List.cons_append, replaceAux_copy hfirst', hrest]
    simp
  | @hit l w u key m out hw hfirst hm _ ih =>
    have heq := h [] (w ++ u) rfl (List.append_ne_nil_of_left_ne_nil hw u)
    rw [List.reverse_nil, List.nil_append, List.append_assoc] at heq
    have hrest := ih fun x y hu hy => by
      have hnext := h (w ++ x) y (by rw [hu, List.append_assoc]) hy
      simpa using hnext
    rw [List.append_assoc, replaceAux_hit hw (heq.trans hfirst), hm, hrest]
    simp

/-- Where matches and marks end in a character, the text behind the last of these is as before. -/
theorem Rewrites.suffix {mark : List Char → List Char → List Char → Prop} {out : List Char} {d : Char}
    (h : Rewrites g mark l r out) (hmark : ∀ key l m, mark key l m → ∃ m', m = m' ++ [d])
    (hword : ∀ l w r key, w ≠ [] → g.first l (w ++ r) = some (key, w.length) → ∃ w', w = w' ++ [d])
    {x w : List Char} (hout : out = x ++ w) (hw : d ∉ w) :
    ∃ x', r = x' ++ w ∧ (x'.reverse ++ l).head? = (x.reverse ++ l).head? ∧ (x = [] → x' = []) := by
  induction h generalizing x w with
  | done =>
    obtain ⟨rfl, rfl⟩ := List.append_eq_nil_iff.1 hout.symm
    exact ⟨[], rfl, rfl, fun _ => rfl⟩
  | @copy l r out c hfirst _ ih =>
    cases x with
    | nil =>
      obtain rfl : c :: out = w := hout
      obtain ⟨x', hr, -, hnil⟩ := ih (x := []) rfl fun h => hw (List.mem_cons_of_mem c h)
      rw [hnil rfl] at hr
      exact ⟨[], congrArg (c :: ·) hr, rfl, fun _ => rfl⟩
    | cons e x =>
      obtain ⟨rfl, htail⟩ := List.cons.inj hout
      obtain ⟨x', rfl, hhead, -⟩ := ih htail hw
      exact ⟨c :: x', rfl, by simpa using hhead, fun h => by cases h⟩
  | @hit l w₀ r key m out hw₀ hfirst hm _ ih =>
    obtain ⟨m', rfl⟩ := hmark _ _ _ hm
    obtain ⟨w', rfl⟩ := hword _ _ _ _ hw₀ hfirst
    have hsplit : ∃ y, x = m' ++ [d] ++ y ∧ out = y ++ w := by
      rcases List.append_eq_append_iff.1 hout with ⟨y, hx, hy⟩ | ⟨y, hm', hy⟩
      · exact ⟨y, hx, hy⟩
      · rcases List.eq_nil_or_concat y with rfl | ⟨y, e, rfl⟩
        · exact ⟨[], by rw [hm', List.append_nil, List.append_nil], hy.symm⟩
        · rw [List.concat_eq_append, ← List.append_assoc] at hm'
          obtain ⟨-, he⟩ := List.append_inj' hm' rfl
          obtain rfl := List.singleton_inj.1 he
          refine absurd ?_ hw
          rw [hy]
          simp
    obtain ⟨y, rfl, hy⟩ := hsplit
    obtain ⟨x', rfl, hhead, -⟩ := ih hy hw
    refine ⟨w' ++ [d] ++ x', by simp, ?_, fun h => by simp at h⟩
    rw [List.reverse_append, List.append_assoc, hhead]
    cases hy' : y.reverse with
    | nil => simp [hy']
    | cons e y' => simp [hy']

end Grouped

end NginxAdmin.Regex
