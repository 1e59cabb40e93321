import NginxAdmin.Lib.Greedy
import NginxAdmin.Web.AssignedSecrets
import NginxAdmin.Web.UrlPass

/-!
# Schemes of authorization headers

`hidesCredentials_iff`: the credentials of an authorization header are hidden exactly for the scheme `Bearer`, as long as
the text before the header does not leave an authorization of its own open. For every other scheme the header pattern takes
the scheme for the value.
-/

namespace NginxAdmin.Web

open Regex

section Value

variable {l r u : List Char} {q : Char} {s : String}

theorem run_literal_seq {b : Regex} (hs : s.toList = [q]) : run (seq (literal s) b) l (q :: r) = run b (q :: l) r := by
  have hword : List.Forall₂ (fun c d => (d == c) = true) [q] [q] := .cons (beq_self_eq_true q) .nil
  have hrun := run_literalBy (l := l) (r := r) hword
  rw [run, literal, hs]
  rw [List.singleton_append] at hrun
  rw [hrun, List.flatMap_cons, List.flatMap_nil, List.append_nil]
  rfl

theorem run_quoted (hs : s.toList = [q]) (hu : q ∉ u) :
    run (seq (literal s) (seq (star (char fun c => c != q)) (literal s))) l (q :: (u ++ q :: r)) =
      [((q :: (u ++ [q])).reverse ++ l, r)] := by
  have hclose : ∀ l r, r.head?.any (fun c => c != q) = true → run (literal s) l r = [] := by
    intro l r hr
    refine run_eq_nil fun w r' hw hM => ?_
    rw [matches_literal, hs] at hM
    rw [hw, hM] at hr
    simp at hr
  obtain ⟨htake, hdrop⟩ := takeWhile_of_all (p := fun c => c != q) (u := u) (r := q :: r)
    (fun c hc => bne_iff_ne.2 fun h => hu (h ▸ hc)) (by simp)
  have hword : List.Forall₂ (fun c d => (d == c) = true) [q] [q] := .cons (beq_self_eq_true q) .nil
  have hrun := run_literalBy (l := u.reverse ++ q :: l) (r := r) hword
  rw [run_literal_seq hs, run_star_seq hclose, htake, hdrop, literal, hs]
  rw [List.singleton_append] at hrun
  rw [hrun]
  simp

theorem run_quoted_eq_nil (hs : s.toList = [q]) (h : ∀ u v, r ≠ q :: (u ++ q :: v)) :
    run (seq (literal s) (seq (star (char fun c => c != q)) (literal s))) l r = [] := by
  refine run_eq_nil fun w r' hr => ?_
  rintro ⟨w₁, _, rfl, h₁, w₂, w₃, rfl, -, h₃⟩
  rw [matches_literal, hs] at h₁ h₃
  refine h w₂ r' ?_
  rw [hr, h₁, h₃]
  simp

end Value

/-- The characters of credentials in the alphabet of `token68`. -/
def IsToken (c : List Char) : Prop := c ≠ [] ∧ ∀ d ∈ c, isTokenChar d = true

/-- The preferred match of `a` is the same for all credentials `c` in the text `z ++ head ++ c ++ after`: there is none, or
it ends inside `z`, or it ends behind the credentials. -/
def Settles (head after : List Char) (a : Regex) (l z : List Char) : Prop :=
  (∀ c, IsToken c → run a l (z ++ (head ++ (c ++ after))) = []) ∨
  (∃ w z', z = w ++ z' ∧ w ≠ [] ∧ ∀ c, IsToken c →
    (run a l (z ++ (head ++ (c ++ after)))).head? = some (w.reverse ++ l, z' ++ (head ++ (c ++ after)))) ∨
  (∃ u v, after = u ++ v ∧ u ≠ [] ∧ ∀ c, IsToken c →
    (run a l (z ++ (head ++ (c ++ after)))).head? = some ((z ++ (head ++ (c ++ u))).reverse ++ l, v))

namespace Settles

variable {head after : List Char} {a b : Regex} {l z : List Char}

theorem alt (ha : Settles head after a l z) (hb : Settles head after b l z) : Settles head after (alt a b) l z := by
  rcases ha with ha | ⟨w, z', hz, hw, ha⟩ | ⟨u, v, huv, hu, ha⟩
  · rcases hb with hb | ⟨w, z', hz, hw, hb⟩ | ⟨u, v, huv, hu, hb⟩
    · exact .inl fun c hc => by rw [run, ha c hc, hb c hc, List.append_nil]
    · exact .inr (.inl ⟨w, z', hz, hw, fun c hc => by rw [head_run_alt_right (ha c hc), hb c hc]⟩)
    · exact .inr (.inr ⟨u, v, huv, hu, fun c hc => by rw [head_run_alt_right (ha c hc), hb c hc]⟩)
  · exact .inr (.inl ⟨w, z', hz, hw, fun c hc => head_run_alt_left (ha c hc)⟩)
  · exact .inr (.inr ⟨u, v, huv, hu, fun c hc => head_run_alt_left (ha c hc)⟩)

/-- What runs as another expression behind `x` settles as that one does. -/
theorem step {x : List Char} (h : ∀ t, run a l (x ++ (z ++ (head ++ t))) = run b (x.reverse ++ l) (z ++ (head ++ t)))
    (hb : Settles head after b (x.reverse ++ l) z) : Settles head after a l (x ++ z) := by
  rcases hb with hb | ⟨w, z', rfl, hw, hb⟩ | ⟨u, v, huv, hu, hb⟩
  · refine .inl fun c hc => ?_
    rw [List.append_assoc, h, hb c hc]
  · refine .inr (.inl ⟨x ++ w, z', (List.append_assoc ..).symm, by simp [hw], fun c hc => ?_⟩)
    rw [List.append_assoc, h, hb c hc]
    simp
  · refine .inr (.inr ⟨u, v, huv, hu, fun c hc => ?_⟩)
    rw [List.append_assoc, h, hb c hc]
    simp

theorem congr (h : ∀ t, run a l (z ++ (head ++ t)) = run b l (z ++ (head ++ t))) (hb : Settles head after b l z) :
    Settles head after a l z :=
  step (x := []) h hb

theorem none (h : ∀ t, run a l (z ++ (head ++ t)) = []) : Settles head after a l z :=
  .inl fun c _ => h (c ++ after)

end Settles

section Header

variable {head after : List Char} {l z : List Char}

/-- A quoted value closes inside `z`, or behind the credentials, or not at all. -/
theorem settles_quoted {q : Char} {s : String} (hs : s.toList = [q]) (hhead : q ∉ head) (hq : isTokenChar q = false)
    (hz : z ≠ []) : Settles head after (seq (literal s) (seq (star (char fun c => c != q)) (literal s))) l z := by
  have htoken {c : List Char} (hc : IsToken c) : q ∉ c := by
    intro hmem
    rw [hc.2 q hmem] at hq
    cases hq
  obtain ⟨e, z, rfl⟩ := List.exists_cons_of_ne_nil hz
  by_cases he : e = q
  · subst he
    by_cases hclosed : e ∈ z
    · obtain ⟨u, v, rfl, hu⟩ := List.eq_append_cons_of_mem hclosed
      refine .inr (.inl ⟨e :: (u ++ [e]), v, by simp, List.cons_ne_nil _ _, fun c _ => ?_⟩)
      rw [List.cons_append, List.append_assoc, List.cons_append, run_quoted hs hu]
      rfl
    · by_cases hafter : e ∈ after
      · obtain ⟨u, v, rfl, hu⟩ := List.eq_append_cons_of_mem hafter
        refine .inr (.inr ⟨u ++ [e], v, by simp, by simp, fun c hc => ?_⟩)
        have hnot : e ∉ z ++ (head ++ (c ++ u)) := by
          simp only [List.mem_append, not_or]
          exact ⟨hclosed, hhead, htoken hc, hu⟩
        have hrun := run_quoted (l := l) (r := v) hs hnot
        simp only [List.append_assoc, List.cons_append] at hrun ⊢
        rw [hrun]
        simp
      · refine .inl fun c hc => run_quoted_eq_nil hs fun u v huv => ?_
        have htail : z ++ (head ++ (c ++ after)) = u ++ e :: v := (List.cons.inj huv).2
        have hmem : e ∈ z ++ (head ++ (c ++ after)) := by
          rw [htail]
          simp
        simp only [List.mem_append] at hmem
        rcases hmem with hmem | hmem | hmem | hmem
        · exact hclosed hmem
        · exact hhead hmem
        · exact htoken hc hmem
        · exact hafter hmem
  · exact .inl fun c _ => run_quoted_eq_nil hs fun u v huv => he (List.cons.inj huv).1

theorem settles_bare {p : Char → Bool} {d : Char} (hd : d ∈ z) (hp : p d = false) :
    Settles head after (plus (char p)) l z := by
  obtain ⟨w, z', rfl, hw, hz'⟩ := exists_span p z
  cases w with
  | nil =>
    refine Settles.none fun t => run_eq_nil fun w r' hr hM => ?_
    obtain ⟨hne, hall⟩ := matches_plus_char.1 hM
    obtain ⟨c, w, rfl⟩ := List.exists_cons_of_ne_nil hne
    obtain ⟨e, z', rfl⟩ := List.exists_cons_of_ne_nil (List.ne_nil_of_mem hd)
    obtain ⟨rfl, -⟩ := List.cons.inj hr
    have hc := hall e List.mem_cons_self
    rw [hz' e rfl] at hc
    cases hc
  | cons e w =>
    refine .inr (.inl ⟨e :: w, z', rfl, List.cons_ne_nil e w, fun c _ => ?_⟩)
    have hne : z' ≠ [] := by
      rintro rfl
      rw [List.append_nil] at hd
      rw [hw d hd] at hp
      cases hp
    obtain ⟨htake, hdrop⟩ := takeWhile_of_all (r := z' ++ (head ++ (c ++ after))) hw fun f hf => by
      rw [List.head?_append_of_ne_nil _ hne] at hf
      exact hz' f hf
    rw [List.append_assoc, List.cons_append, head_run_plus_char (hw e List.mem_cons_self), ← List.cons_append, htake, hdrop]

theorem settles_value (hhead : '"' ∉ head ∧ '\'' ∉ head) {d : Char} (hd : d ∈ z) (hspace : isSpace d = true) :
    Settles head after (valuePattern isBareChar) l z := by
  have hz := List.ne_nil_of_mem hd
  have hbare : isBareChar d = false := by rw [isBareChar, hspace]; rfl
  have hnever : Settles head after never l z := Settles.none fun t => by
    cases hrun : run never l (z ++ (head ++ t)) with
    | nil => rfl
    | cons q qs =>
      obtain ⟨w, -, -, c, hc, -⟩ := (mem_run never l _ q).1 (hrun ▸ List.mem_cons_self)
      cases hc
  exact (settles_quoted rfl hhead.1 (by decide) hz).alt ((settles_quoted rfl hhead.2 (by decide) hz).alt
    ((settles_bare hd hbare).alt hnever))

/-- A run of a class in `z`, and what settles behind it. -/
theorem settles_star {p : Char → Bool} {b : Regex} {x : List Char} (hb : ∀ l r, r.head?.any p = true → run b l r = [])
    (hx : ∀ c ∈ x, p c = true) (hz : ∀ t c, (z ++ (head ++ t)).head? = some c → p c = false)
    (h : Settles head after b (x.reverse ++ l) z) : Settles head after (seq (star (char p)) b) l (x ++ z) := by
  refine h.step fun t => ?_
  obtain ⟨htake, hdrop⟩ := takeWhile_of_all hx (hz t)
  rw [run_star_seq hb, htake, hdrop]

theorem settles_plus {p : Char → Bool} {b : Regex} {x : List Char} (hb : ∀ l r, r.head?.any p = true → run b l r = [])
    (hne : x ≠ []) (hx : ∀ c ∈ x, p c = true) (hz : ∀ t c, (z ++ (head ++ t)).head? = some c → p c = false)
    (h : Settles head after b (x.reverse ++ l) z) : Settles head after (seq (plus (char p)) b) l (x ++ z) := by
  refine h.step fun t => ?_
  obtain ⟨htake, hdrop⟩ := takeWhile_of_all hx (hz t)
  rw [run_plus_seq hb, htake, hdrop]
  obtain ⟨c, x, rfl⟩ := List.exists_cons_of_ne_nil hne
  exact hx c List.mem_cons_self

theorem head?_of_span {p : Char → Bool} {z : List Char} (hz : ∀ c, z.head? = some c → p c = false)
    (hhead : ∀ c, head.head? = some c → p c = false) (hne : head ≠ []) (t : List Char) (c : Char)
    (h : (z ++ (head ++ t)).head? = some c) : p c = false := by
  cases z with
  | nil =>
    rw [List.nil_append, List.head?_append_of_ne_nil _ hne] at h
    exact hhead c h
  | cons d z => exact hz c h

end Header

/-! ### The header pattern -/

def EndsInSpace (z : List Char) : Prop := ∃ z₀ d, z = z₀ ++ [d] ∧ isSpace d = true

theorem EndsInSpace.ne_nil {z : List Char} (h : EndsInSpace z) : z ≠ [] := by
  obtain ⟨z₀, d, rfl, -⟩ := h
  simp

theorem EndsInSpace.mem {z : List Char} (h : EndsInSpace z) : ∃ d ∈ z, isSpace d = true := by
  obtain ⟨z₀, d, rfl, hd⟩ := h
  exact ⟨d, by simp, hd⟩

theorem EndsInSpace.suffix {x y : List Char} (h : EndsInSpace (x ++ y)) (hy : y ≠ []) : EndsInSpace y := by
  obtain ⟨z₀, d, hxy, hd⟩ := h
  refine ⟨y.dropLast, d, ?_, hd⟩
  have hlast : y.getLast hy = d := by
    have hget := congrArg List.getLast? hxy
    rw [List.getLast?_append_of_ne_nil _ hy, List.getLast?_concat, List.getLast?_eq_some_getLast hy] at hget
    exact Option.some.inj hget
  rw [← hlast, List.dropLast_append_getLast]

/-- `bearer\s+` -/
def bearerWord : Regex := seq (literalI "bearer") (plus (char isSpace))

theorem value_starts {l w r : List Char} (h : Matches (valuePattern isBareChar) l w r) :
    ∃ c w', w = c :: w' ∧ isSpace c = false := by
  rw [valuePattern, matches_alts] at h
  obtain ⟨a, ha, h⟩ := h
  simp only [List.mem_cons, List.not_mem_nil, or_false] at ha
  rcases ha with rfl | rfl | rfl
  · obtain ⟨w₁, w₂, rfl, h₁, -⟩ := h
    rw [matches_literal] at h₁
    exact ⟨'"', w₂, by rw [h₁]; rfl, by decide⟩
  · obtain ⟨w₁, w₂, rfl, h₁, -⟩ := h
    rw [matches_literal] at h₁
    exact ⟨'\'', w₂, by rw [h₁]; rfl, by decide⟩
  · obtain ⟨hne, hall⟩ := matches_plus_char.1 h
    obtain ⟨c, w, rfl⟩ := List.exists_cons_of_ne_nil hne
    have hc := hall c List.mem_cons_self
    simp only [isBareChar, Bool.and_eq_true, Bool.not_eq_true'] at hc
    exact ⟨c, w, rfl, hc.1.1⟩

theorem run_value_of_space (l r : List Char) (h : r.head?.any isSpace = true) : run (valuePattern isBareChar) l r = [] := by
  refine run_eq_nil fun w r' hr hM => ?_
  obtain ⟨c, w', rfl, hc⟩ := value_starts hM
  rw [hr] at h
  exact absurd (hc.symm.trans h) Bool.false_ne_true

theorem run_literalI_seq {s : String} {w l r : List Char} {b : Regex}
    (h : List.Forall₂ (fun c d => (foldI d == c) = true) s.toList w) :
    run (seq (literalI s) b) l (w ++ r) = run b (w.reverse ++ l) r := by
  rw [run, literalI, run_literalBy h, List.flatMap_cons, List.flatMap_nil, List.append_nil]

theorem not_isSpace_bearer {l w r : List Char} (h : Matches (literalI "bearer") l w r) : ∀ c ∈ w, isSpace c = false := by
  intro c hc
  have hmark : isMark c = false := only_literalI (s := "bearer") (by decide) l w r h c hc
  rw [isMark, Bool.or_eq_false_iff] at hmark
  exact hmark.2

section Header

variable {head after : List Char} {l z : List Char}

theorem settles_bearer (hhead : '"' ∉ head ∧ '\'' ∉ head) (hne : head ≠ [])
    (hspace : ∀ c, head.head? = some c → isSpace c = false) (hz : EndsInSpace z)
    (hopen : ∀ l, ¬ Matches bearerWord l z []) :
    Settles head after (seq (opt bearerWord) (valuePattern isBareChar)) l z := by
  obtain ⟨d, hd, hd'⟩ := hz.mem
  refine Settles.congr (fun t => run_opt_seq) (Settles.alt ?_ (settles_value hhead hd hd'))
  refine Settles.congr (fun t => run_seq_assoc) ?_
  by_cases hword : ∃ w z', z = w ++ z' ∧ Matches (literalI "bearer") l w []
  · obtain ⟨w, z', rfl, hw⟩ := hword
    refine Settles.step (fun t => run_literalI_seq (matches_literalBy.1 hw)) ?_
    obtain ⟨x, z₁, rfl, hx, hz₁⟩ := exists_span isSpace z'
    have hhead' := head?_of_span hz₁ hspace hne
    by_cases hnil : x = []
    · subst hnil
      refine Settles.none fun t => run_plus_seq_stop ?_
      cases hfirst : (z₁ ++ (head ++ t)).head? with
      | none => rw [List.nil_append, hfirst]; rfl
      | some c =>
        rw [List.nil_append, hfirst]
        exact hhead' t c hfirst
    · have hz₁' : z₁ ≠ [] := by
        rintro rfl
        refine hopen l ⟨w, x, by rw [List.append_nil], ?_, matches_plus_char.2 ⟨hnil, hx⟩⟩
        exact ((plain_literalBy _ _).matches_iff).1 hw
      have hz₁'' : EndsInSpace z₁ := by
        rw [← List.append_assoc] at hz
        exact hz.suffix hz₁'
      obtain ⟨e, he, he'⟩ := hz₁''.mem
      exact settles_plus run_value_of_space hnil hx hhead' (settles_value hhead he he')
  · refine Settles.none fun t => run_eq_nil fun w r' hr => ?_
    rintro ⟨w₁, w₂, rfl, h₁, -⟩
    rw [List.append_assoc] at hr
    obtain ⟨z', hz'⟩ := prefix_of_not_mem (q := fun c => isSpace c = false) hr.symm (not_isSpace_bearer h₁) hd
      (by rw [hd']; decide)
    exact hword ⟨w₁, z', hz', ((plain_literalBy _ _).matches_iff).1 h₁⟩

theorem run_opt_bearer_of_space (l r : List Char) (h : r.head?.any isSpace = true) :
    run (seq (opt bearerWord) (valuePattern isBareChar)) l r = [] := by
  rw [run_opt_seq, run_value_of_space l r h, List.append_nil]
  refine run_eq_nil fun w r' hr => ?_
  rintro ⟨_, w₂, rfl, ⟨w₁, w₃, rfl, h₁, -⟩, -⟩
  have hword := head?_of_forall₂ (matches_literalBy.1 h₁) (by decide)
  obtain ⟨c, w₁, rfl⟩ := List.exists_cons_of_ne_nil (l := w₁) (by rintro rfl; cases hword)
  have hc := not_isSpace_bearer h₁ c List.mem_cons_self
  rw [hr] at h
  exact absurd (hc.symm.trans h) Bool.false_ne_true

theorem assign_of_space (b : Regex) (l r : List Char) (h : r.head?.any isSpace = true) :
    run (seq (seq (char fun c => c == ':' || c == '=') (star (char isSpace))) b) l r = [] := by
  rw [run_seq_assoc, run_char_seq_stop]
  cases r with
  | nil => rfl
  | cons c r =>
    have hc : isSpace c = true := h
    show (c == ':' || c == '=') = false
    rw [← Bool.not_eq_true, Bool.or_eq_true, beq_iff_eq, beq_iff_eq]
    rintro (rfl | rfl)
    · exact absurd hc (by decide)
    · exact absurd hc (by decide)

/-- What follows the word `authorization`, unless it leaves the value open. -/
theorem settles_rest (hhead : '"' ∉ head ∧ '\'' ∉ head) (hne : head ≠ [])
    (hspace : ∀ c, head.head? = some c → isSpace c = false)
    (hassign : ∀ c, head.head? = some c → (c == ':' || c == '=') = false) (hz : EndsInSpace z)
    (hopen : ∀ l, ¬ Matches (seq assignPattern (opt bearerWord)) l z []) :
    Settles head after authorizationPattern.rest l z := by
  refine Settles.congr (fun t => run_seq_assoc) ?_
  obtain ⟨x, z₁, rfl, hx, hz₁⟩ := exists_span isSpace z
  refine settles_star (assign_of_space _) hx (head?_of_span hz₁ hspace hne) (Settles.congr (fun t => run_seq_assoc) ?_)
  cases z₁ with
  | nil =>
    refine Settles.none fun t => run_char_seq_stop ?_
    obtain ⟨c, head, rfl⟩ := List.exists_cons_of_ne_nil hne
    exact hassign c rfl
  | cons d z₁ =>
    by_cases hd : (d == ':' || d == '=') = true
    · refine Settles.step (x := [d]) (fun t => run_char_seq hd) ?_
      obtain ⟨y, z₂, rfl, hy, hz₂⟩ := exists_span isSpace z₁
      have hbefore : ∀ l w, Matches (opt bearerWord) l w [] → z₂ ≠ w := by
        rintro l w hw rfl
        have hw' : Matches (opt bearerWord) ((x ++ d :: y).reverse ++ l) z₂ [] := hw.elim
          (fun h => .inl (Plain.matches_iff (a := bearerWord) ⟨plain_literalBy _ _, trivial, trivial⟩ |>.1 h)) .inr
        refine hopen l ⟨x ++ d :: y, z₂, by simp, ?_, hw'⟩
        exact ⟨x, d :: y, rfl, matches_star_char.2 hx, [d], y, rfl, ⟨d, hd, rfl⟩, matches_star_char.2 hy⟩
      have hz₂' : EndsInSpace z₂ := by
        have hsplit : x ++ d :: (y ++ z₂) = (x ++ d :: y) ++ z₂ := by simp
        rw [hsplit] at hz
        exact hz.suffix (hbefore l [] (.inr rfl))
      exact settles_star run_opt_bearer_of_space hy (head?_of_span hz₂ hspace hne)
        (settles_bearer hhead hne hspace hz₂' fun l h => hbefore l z₂ (.inl h) rfl)
    · exact Settles.none fun t => run_char_seq_stop (by simpa using hd)

end Header

theorem first_authorization {l k r : List Char} (hbound : Matches wordBoundaryI l [] (k ++ r))
    (hk : List.Forall₂ (fun c d => (foldI d == c) = true) "authorization".toList k) :
    authorizationPattern.first l (k ++ r) =
      (run authorizationPattern.rest (k.reverse ++ l) r).head?.map fun e => (k, (k ++ r).length - e.2.length) := by
  have hbefore : run authorizationPattern.before l (k ++ r) = [(l, k ++ r)] := if_pos hbound.1
  have hkey : run authorizationPattern.key l (k ++ r) = [(k.reverse ++ l, r)] := run_literalBy hk
  rw [Grouped.first, hbefore, List.flatMap_cons, List.flatMap_nil, List.append_nil, hkey, List.flatMap_cons,
    List.flatMap_nil, List.append_nil, List.head?_map, List.length_append, Nat.add_sub_cancel, List.take_left]

/-- An authorization whose value does not start in the text. -/
def openAuthorization : Regex :=
  seq wordBoundaryI (seq (literalI "authorization") (seq assignPattern (opt bearerWord)))

section Header

variable {head : List Char} {l y : List Char}

theorem first_settles (after : List Char) (hhead : '"' ∉ head ∧ '\'' ∉ head) (hne : head ≠ [])
    (hspace : ∀ c, head.head? = some c → isSpace c = false)
    (hassign : ∀ c, head.head? = some c → (c == ':' || c == '=') = false) (hy : EndsInSpace y)
    (hopen : ¬ Matches openAuthorization l y []) :
    (∀ c, IsToken c → authorizationPattern.first l (y ++ (head ++ (c ++ after))) = none) ∨
    (∃ w y' key, y = w ++ y' ∧ w ≠ [] ∧ ∀ c, IsToken c →
      authorizationPattern.first l (y ++ (head ++ (c ++ after))) = some (key, w.length)) ∨
    (∃ u v key, after = u ++ v ∧ u ≠ [] ∧ ∀ c, IsToken c →
      authorizationPattern.first l (y ++ (head ++ (c ++ after))) = some (key, (y ++ (head ++ (c ++ u))).length)) := by
  obtain ⟨d, hd, hd'⟩ := hy.mem
  by_cases hkey : Matches wordBoundaryI l [] y ∧ ∃ k z, y = k ++ z ∧
      List.Forall₂ (fun c d => (foldI d == c) = true) "authorization".toList k
  · obtain ⟨hbound, k, z, rfl, hk⟩ := hkey
    have hword : Matches (literalI "authorization") l k z := matches_literalBy.2 hk
    have hz : z ≠ [] := by
      rintro rfl
      rw [List.append_nil] at hd
      have hmark : isMark d = false := keyWord_authorization.unmarked l k [] hword d hd
      rw [isMark_of_isSpace hd'] at hmark
      cases hmark
    have hplain : Plain (seq assignPattern (opt bearerWord)) :=
      ⟨⟨trivial, trivial, trivial⟩, ⟨plain_literalBy _ _, trivial, trivial⟩, trivial⟩
    have hrest : Settles head after authorizationPattern.rest (k.reverse ++ l) z :=
      settles_rest hhead hne hspace hassign (hy.suffix hz) fun l' h => hopen ⟨[], k ++ z, rfl, ⟨by simpa using hbound.1, rfl⟩, k, z, rfl,
        by simpa using hword, hplain.matches_iff.1 h⟩
    have hfirst (t : List Char) : authorizationPattern.first l (k ++ z ++ t) =
        (run authorizationPattern.rest (k.reverse ++ l) (z ++ t)).head?.map fun e => (k, (k ++ (z ++ t)).length - e.2.length) := by
      rw [List.append_assoc]
      refine first_authorization ((matches_boundary_congr ?_).1 hbound) hk
      obtain ⟨e, k, rfl⟩ := List.exists_cons_of_ne_nil (l := k) (by rintro rfl; cases hk)
      rfl
    rcases hrest with hrest | ⟨w, z', rfl, hw, hrest⟩ | ⟨u, v, huv, hu, hrest⟩
    · refine .inl fun c hc => ?_
      rw [hfirst, hrest c hc]
      rfl
    · refine .inr (.inl ⟨k ++ w, z', k, (List.append_assoc ..).symm, by simp [hw], fun c hc => ?_⟩)
      rw [hfirst, hrest c hc, Option.map_some]
      simp only [List.length_append]
      congr 2
      omega
    · refine .inr (.inr ⟨u, v, k, huv, hu, fun c hc => ?_⟩)
      rw [hfirst, hrest c hc, Option.map_some]
      subst huv
      simp only [List.length_append]
      congr 2
      omega
  · refine .inl fun c _ => ?_
    rw [Grouped.first_eq_none_iff]
    rintro w r' hr ⟨w₁, _, rfl, ⟨hbound, rfl⟩, k, w₂, rfl, hk, -⟩
    simp only [List.nil_append, List.append_assoc] at hr hbound
    obtain ⟨z, rfl⟩ := prefix_of_not_mem (q := fun c => isMark c = false) hr.symm (keyWord_authorization.unmarked _ _ _ hk) hd
      (by rw [isMark_of_isSpace hd']; decide)
    have hword := matches_literalBy.1 hk
    refine hkey ⟨(matches_boundary_congr ?_).1 ⟨hbound, rfl⟩, k, z, rfl, hword⟩
    obtain ⟨e, k, rfl⟩ := List.exists_cons_of_ne_nil (l := k) (by rintro rfl; cases hword)
    rfl

end Header

theorem local_valuePattern (bare : Char → Bool) : (valuePattern bare).Local :=
  ⟨⟨local_literalBy _ _, trivial, local_literalBy _ _⟩, ⟨local_literalBy _ _, trivial, local_literalBy _ _⟩,
    ⟨trivial, trivial⟩, trivial⟩

theorem local_authorization : authorizationPattern.Local :=
  ⟨local_wordBoundaryI, local_literalBy _ _, ⟨trivial, trivial, trivial⟩,
    ⟨⟨local_literalBy _ _, trivial, trivial⟩, trivial⟩, local_valuePattern _⟩

/-- White space first, or nothing: a text that follows a word, or the text before, nearest character first. -/
def AtSpace (l : List Char) : Prop := ∀ c, l.head? = some c → isSpace c = true

theorem EndsInSpace.cut {l w y : List Char} (h : EndsInSpace (w ++ y)) :
    EndsInSpace y ∨ y = [] ∧ AtSpace (w.reverse ++ l) := by
  by_cases hy : y = []
  · subst hy
    refine .inr ⟨rfl, fun c hc => ?_⟩
    obtain ⟨z₀, d, hz, hd⟩ := h
    rw [List.append_nil] at hz
    rw [hz, List.reverse_append, List.append_assoc] at hc
    obtain rfl := Option.some.inj hc
    exact hd
  · exact .inl (h.suffix hy)

/-- What the pass makes of the text does not depend on the credentials, if that is so for the header alone. -/
theorem authorization_uniform {head after : List Char} (hhead : '"' ∉ head ∧ '\'' ∉ head) (hne : head ≠ [])
    (hspace : ∀ c, head.head? = some c → isSpace c = false)
    (hassign : ∀ c, head.head? = some c → (c == ':' || c == '=') = false)
    (hheader : ∀ l, AtSpace l → ∃ out, ∀ c, IsToken c →
      authorizationPattern.replaceAux redactKeyed 0 l (head ++ (c ++ after)) = out) {l y : List Char}
    (hy : EndsInSpace y ∨ y = [] ∧ AtSpace l)
    (hopen : ∀ x w, y = x ++ w → ¬ Matches openAuthorization (x.reverse ++ l) w []) :
    ∃ out, ∀ c, IsToken c → authorizationPattern.replaceAux redactKeyed 0 l (y ++ (head ++ (c ++ after))) = out := by
  induction hn : y.length using Nat.strong_induction_on generalizing l y with
  | _ n ih =>
    subst hn
    obtain hy | ⟨rfl, hl⟩ := hy
    swap
    · exact hheader l hl
    rcases first_settles after hhead hne hspace hassign hy (l := l) (hopen [] y rfl) with
      hfirst | ⟨w, y', key, rfl, hw, hfirst⟩ | ⟨u, v, key, huv, hu, hfirst⟩
    · obtain ⟨e, y', rfl⟩ := List.exists_cons_of_ne_nil hy.ne_nil
      have hcut : EndsInSpace y' ∨ y' = [] ∧ AtSpace (e :: l) := hy.cut (w := [e])
      obtain ⟨out, hout⟩ := ih y'.length (Nat.lt_succ_self _) hcut
        (fun x w hxw => by simpa using hopen (e :: x) w (by rw [hxw]; rfl)) rfl
      refine ⟨e :: out, fun c hc => ?_⟩
      have hcopy : ∀ key n, authorizationPattern.first l (e :: (y' ++ (head ++ (c ++ after)))) ≠ some (key, n + 1) := by
        intro key n h
        exact absurd ((hfirst c hc).symm.trans h) (by simp)
      rw [List.cons_append, Grouped.replaceAux_copy hcopy, hout c hc]
    · have hlt : y'.length < (w ++ y').length := by
        have := List.length_pos_iff.2 hw
        rw [List.length_append]
        omega
      obtain ⟨out, hout⟩ := ih y'.length hlt hy.cut
        (fun x z hxz => by simpa using hopen (w ++ x) z (by rw [hxz, List.append_assoc])) rfl
      refine ⟨redactKeyed key l ++ out, fun c hc => ?_⟩
      have hhit := hfirst c hc
      rw [List.append_assoc] at hhit ⊢
      rw [Grouped.replaceAux_hit hw hhit, hout c hc]
    · refine ⟨redactKeyed key l ++ authorizationPattern.replaceAux redactKeyed 0 u.reverse v, fun c hc => ?_⟩
      have hhit := hfirst c hc
      have htext : y ++ (head ++ (c ++ after)) = (y ++ (head ++ (c ++ u))) ++ v := by rw [huv]; simp
      rw [htext] at hhit ⊢
      rw [Grouped.replaceAux_hit (by simp [hne]) hhit]
      refine congrArg (redactKeyed key l ++ ·) (Grouped.replaceAux_congr local_authorization (fun _ _ _ => rfl) ?_ v)
      have hrev : (y ++ (head ++ (c ++ u))).reverse ++ l = u.reverse ++ (c.reverse ++ (head.reverse ++ (y.reverse ++ l))) := by
        simp
      rw [hrev, List.head?_append_of_ne_nil _ (by simpa using hu)]

def isSchemeTokenChar (c : Char) : Bool := c.isAlphanum || c == '-'

def IsScheme (scheme : List Char) : Prop := scheme ≠ [] ∧ ∀ c ∈ scheme, isSchemeTokenChar c = true

def isBearer (scheme : List Char) : Prop := scheme.map Char.toLower = "bearer".toList

theorem isValueChar_of_isAlphanum {c : Char} (h : c.isAlphanum = true) : isValueChar c = true := by
  have hmark := isMark_of_isAlphanum h
  rw [isMark, Bool.or_eq_false_iff] at hmark
  rw [isValueChar, isBareChar, hmark.2]
  simp only [Bool.not_false, Bool.true_and, Bool.and_eq_true, bne_iff_ne]
  refine ⟨⟨⟨?_, ?_⟩, ?_⟩, ?_⟩
  · rintro rfl
    exact absurd h (by decide)
  · rintro rfl
    exact absurd h (by decide)
  · rintro rfl
    exact absurd h (by decide)
  · rintro rfl
    exact absurd h (by decide)

theorem isValueChar_of_isSchemeTokenChar {c : Char} (h : isSchemeTokenChar c = true) : isValueChar c = true := by
  rw [isSchemeTokenChar, Bool.or_eq_true, beq_iff_eq] at h
  rcases h with h | rfl
  · exact isValueChar_of_isAlphanum h
  · decide

theorem isValueChar_of_isTokenChar {c : Char} (h : isTokenChar c = true) : isValueChar c = true := by
  simp only [isTokenChar, isLetterI, Bool.or_eq_true, beq_iff_eq] at h
  rcases h with ((((((((((h | rfl) | rfl) | h) | rfl) | rfl) | rfl) | rfl) | rfl) | rfl) | rfl)
  · exact isValueChar_of_isAlphanum (by rw [Char.isAlphanum, h, Bool.true_or])
  · decide
  · decide
  · exact isValueChar_of_isAlphanum (by rw [Char.isAlphanum, h, Bool.or_true])
  · decide
  · decide
  · decide
  · decide
  · decide
  · decide
  · decide

theorem IsToken.isValue {c : List Char} (h : IsToken c) : IsValue c :=
  ⟨h.1, fun d hd => isValueChar_of_isTokenChar (h.2 d hd)⟩

theorem IsScheme.isValue {scheme : List Char} (h : IsScheme scheme) : IsValue scheme :=
  ⟨h.1, fun d hd => isValueChar_of_isSchemeTokenChar (h.2 d hd)⟩

theorem isBareChar_of_isValueChar {c : Char} (h : isValueChar c = true) : isBareChar c = true := by
  rw [isValueChar, Bool.and_eq_true, Bool.and_eq_true] at h
  exact h.1.1

theorem forall₂_foldI {cs w : List Char} :
    List.Forall₂ (fun c d => (foldI d == c) = true) cs w ↔ w.map foldI = cs := by
  constructor
  · intro h
    induction h with
    | nil => rfl
    | cons hcd _ ih => rw [List.map_cons, ih, beq_iff_eq.1 hcd]
  · rintro rfl
    induction w with
    | nil => exact .nil
    | cons d w ih => exact .cons (beq_self_eq_true _) ih

theorem foldI_of_isSchemeTokenChar {c : Char} (h : isSchemeTokenChar c = true) : foldI c = c.toLower := by
  rw [foldI, if_neg, if_neg]
  · rintro rfl
    exact absurd h (by decide)
  · rintro rfl
    exact absurd h (by decide)

theorem matches_bearer_iff {scheme l r : List Char} (hscheme : IsScheme scheme) :
    Matches (literalI "bearer") l scheme r ↔ isBearer scheme := by
  have hfold : scheme.map foldI = scheme.map Char.toLower :=
    List.map_congr_left fun c hc => foldI_of_isSchemeTokenChar (hscheme.2 c hc)
  rw [literalI, matches_literalBy, forall₂_foldI, hfold, isBearer]

theorem run_assign_seq {b : Regex} {d : Char} {x r l : List Char} (hb : ∀ l r, r.head?.any isSpace = true → run b l r = [])
    (hd : (d == ':' || d == '=') = true) (hx : ∀ c ∈ x, isSpace c = true) (hr : ∀ c, r.head? = some c → isSpace c = false) :
    run (seq assignPattern b) l (d :: (x ++ r)) = run b (x.reverse ++ d :: l) r := by
  have hspace : isSpace d = false := by
    rw [Bool.or_eq_true, beq_iff_eq, beq_iff_eq] at hd
    rcases hd with rfl | rfl <;> decide
  obtain ⟨htake, hdrop⟩ := takeWhile_of_all (u := []) (r := d :: (x ++ r)) (List.forall_mem_nil _) fun c hc => by
    obtain rfl := Option.some.inj hc
    exact hspace
  obtain ⟨htake', hdrop'⟩ := takeWhile_of_all hx hr
  rw [List.nil_append] at htake hdrop
  rw [assignPattern, run_seq_assoc, run_star_seq (assign_of_space b), htake, hdrop, run_seq_assoc, List.reverse_nil,
    List.nil_append, run_char_seq hd, run_star_seq hb, htake', hdrop']

theorem not_isSpace_of_isValue {v r : List Char} (hv : IsValue v) (c : Char) (h : (v ++ r).head? = some c) :
    isSpace c = false := by
  rw [List.head?_append_of_ne_nil _ hv.1] at h
  exact not_isSpace_of_isValueChar (hv.2 c (List.mem_of_mem_head? h))

theorem authorization_rest :
    authorizationPattern.rest = seq assignPattern (seq (opt bearerWord) (valuePattern isBareChar)) := rfl

/-- With the scheme `bearer` the value is the credentials. -/
theorem head_run_bearer {scheme c after l : List Char} (hscheme : IsScheme scheme) (hbearer : isBearer scheme) (hc : IsToken c)
    (hafter : AtSpace after) : (run authorizationPattern.rest l (':' :: ([' '] ++ (scheme ++ ([' '] ++ (c ++ after)))))).head? =
      some (c.reverse ++ (' ' :: (scheme.reverse ++ (' ' :: ':' :: l))), after) := by
  have hspace : ∀ d ∈ [' '], isSpace d = true := List.forall_mem_singleton.2 (by decide)
  have hvalue := head_run_value (p := isBareChar) (l := ' ' :: (scheme.reverse ++ (' ' :: ':' :: l))) (r := after)
    (fun _ => isBareChar_of_isValueChar) hc.isValue fun d hd => by rw [isBareChar, hafter d hd]; rfl
  obtain ⟨htake, hdrop⟩ := takeWhile_of_all (r := c ++ after) hspace (not_isSpace_of_isValue hc.isValue)
  rw [authorization_rest, run_assign_seq run_opt_bearer_of_space (by decide) hspace (not_isSpace_of_isValue hscheme.isValue),
    run_opt_seq, List.head?_append, bearerWord, run_seq_assoc,
    run_literalI_seq (matches_literalBy.1 ((matches_bearer_iff (l := []) (r := []) hscheme).2 hbearer)),
    run_plus_seq run_value_of_space rfl, htake, hdrop]
  exact congrArg (fun q => Option.or q _) hvalue

/-- With any other scheme the value is the scheme. -/
theorem head_run_scheme {scheme r l : List Char} (hscheme : IsScheme scheme) (hbearer : ¬ isBearer scheme) :
    (run authorizationPattern.rest l (':' :: ([' '] ++ (scheme ++ ' ' :: r)))).head? =
      some (scheme.reverse ++ (' ' :: ':' :: l), ' ' :: r) := by
  have hspace : ∀ d ∈ [' '], isSpace d = true := List.forall_mem_singleton.2 (by decide)
  have hvalue := head_run_value (p := isBareChar) (l := ' ' :: ':' :: l) (r := ' ' :: r)
    (fun _ => isBareChar_of_isValueChar) hscheme.isValue fun d hd => by obtain rfl := Option.some.inj hd; decide
  have hnil : run (seq bearerWord (valuePattern isBareChar)) (' ' :: ':' :: l) (scheme ++ ' ' :: r) = [] := by
    refine run_eq_nil fun w r' hr => ?_
    rintro ⟨_, w₂, rfl, ⟨w, x, rfl, hw, hx⟩, -⟩
    obtain ⟨hne, hx⟩ := matches_plus_char.1 hx
    obtain ⟨d, x, rfl⟩ := List.exists_cons_of_ne_nil hne
    have hword : ∀ c ∈ w, (isSpace c) = false := not_isSpace_bearer hw
    have hscheme' : ∀ c ∈ scheme, isSpace c = false := fun c hc => not_isSpace_of_isValueChar (hscheme.isValue.2 c hc)
    have hsplit : scheme ++ ' ' :: r = w ++ d :: (x ++ (w₂ ++ r')) := by rw [hr]; simp
    obtain ⟨rfl, -⟩ := append_stop_inj hscheme' hword (by decide) (hx d List.mem_cons_self) hsplit
    exact hbearer ((matches_bearer_iff hscheme).1 hw)
  have hreverse : [' '].reverse ++ ':' :: l = ' ' :: ':' :: l := rfl
  rw [authorization_rest, run_assign_seq run_opt_bearer_of_space (by decide) hspace (not_isSpace_of_isValue hscheme.isValue),
    run_opt_seq, hreverse, hnil, List.nil_append, hvalue]

theorem not_isWordI_of_isSpace {c : Char} (h : isSpace c = true) : isWordI c = false := by
  rw [← Bool.not_eq_true, isWordI, Bool.or_eq_true, Bool.or_eq_true, beq_iff_eq]
  have hmark := isMark_of_isSpace h
  rintro ((hc | rfl) | hc)
  · rw [isMark_of_isAlphanum (by rw [Char.isAlphanum, hc, Bool.or_true])] at hmark
    cases hmark
  · exact absurd h (by decide)
  · rw [isMark_of_isLetterI hc] at hmark
    cases hmark

/-- A header where a word may start: the match is computed by what follows the name. -/
theorem first_header {l r : List Char} (hl : l.head?.any isWordI = false) :
    authorizationPattern.first l ("Authorization".toList ++ r) =
      (run authorizationPattern.rest ("Authorization".toList.reverse ++ l) r).head?.map fun e =>
        ("Authorization".toList, ("Authorization".toList ++ r).length - e.2.length) := by
  refine first_authorization ⟨?_, rfl⟩ (forall₂_foldI.2 (by decide))
  show (l.head?.any isWordI != true) = true
  rw [hl]
  rfl

/-- No word `authorization` starts with one of these characters. -/
theorem first_of_not_a {l r key : List Char} {c : Char} {n : Nat} (hc : foldI c ≠ 'a') :
    authorizationPattern.first l (c :: r) ≠ some (key, n) := by
  intro h
  obtain ⟨w₁, w₃, r', hr, -, ⟨-, rfl⟩, hkey, -⟩ := Grouped.first_spec h
  have hfold := forall₂_foldI.1 (matches_literalBy.1 hkey)
  cases key with
  | nil => exact absurd hfold (by decide)
  | cons d key =>
    obtain ⟨rfl, -⟩ := List.cons.inj hr
    exact hc (List.cons.inj hfold).1

/-- What stands behind the header does not see the credentials. -/
theorem authorization_after {after l l' : List Char} (hafter : AtSpace after) :
    authorizationPattern.replaceAux redactKeyed 0 l after = authorizationPattern.replaceAux redactKeyed 0 l' after := by
  cases after with
  | nil => rfl
  | cons d after =>
    have hmark := isMark_of_isSpace (hafter d rfl)
    rw [Grouped.replaceAux_copy fun key n => assigning_authorization.first_mark hmark after key (n + 1),
      Grouped.replaceAux_copy fun key n => assigning_authorization.first_mark hmark after key (n + 1)]
    have hhead : (d :: l).head? = (d :: l').head? := rfl
    exact congrArg (d :: ·) (Grouped.replaceAux_congr local_authorization (fun _ _ _ => rfl) hhead after)

def headerNames : List String := ["Authorization", "Proxy-Authorization"]

/-- The line of the header up to the credentials. -/
def headerStart (name scheme : List Char) : List Char := name ++ (':' :: ' ' :: (scheme ++ [' ']))

theorem header_bearer {scheme after l : List Char} (hscheme : IsScheme scheme) (hbearer : isBearer scheme)
    (hafter : AtSpace after) (hl : l.head?.any isWordI = false) : ∃ out, ∀ c, IsToken c →
      authorizationPattern.replaceAux redactKeyed 0 l (headerStart "Authorization".toList scheme ++ (c ++ after)) = out := by
  refine ⟨redactKeyed "Authorization".toList l ++ authorizationPattern.replaceAux redactKeyed 0 [] after, fun c hc => ?_⟩
  have htext : headerStart "Authorization".toList scheme ++ (c ++ after) =
      (headerStart "Authorization".toList scheme ++ c) ++ after := (List.append_assoc ..).symm
  have hsplit : headerStart "Authorization".toList scheme ++ c ++ after =
      "Authorization".toList ++ (':' :: ([' '] ++ (scheme ++ ([' '] ++ (c ++ after))))) := by simp [headerStart]
  have hfirst : authorizationPattern.first l (headerStart "Authorization".toList scheme ++ c ++ after) =
      some ("Authorization".toList, (headerStart "Authorization".toList scheme ++ c).length) := by
    rw [hsplit, first_header hl, head_run_bearer hscheme hbearer hc hafter, Option.map_some, ← hsplit, List.length_append,
      Nat.add_sub_cancel]
  rw [htext, Grouped.replaceAux_hit (by simp [headerStart]) hfirst, authorization_after hafter]

/-- The header of either name, behind white space. -/
theorem header_uniform {name : String} (hname : name ∈ headerNames) {scheme after l : List Char} (hscheme : IsScheme scheme)
    (hbearer : isBearer scheme) (hafter : AtSpace after) (hl : AtSpace l) : ∃ out, ∀ c, IsToken c →
      authorizationPattern.replaceAux redactKeyed 0 l (headerStart name.toList scheme ++ (c ++ after)) = out := by
  simp only [headerNames, List.mem_cons, List.not_mem_nil, or_false] at hname
  rcases hname with rfl | rfl
  · refine header_bearer hscheme hbearer hafter ?_
    cases l with
    | nil => rfl
    | cons d l => exact not_isWordI_of_isSpace (hl d rfl)
  · obtain ⟨out, hout⟩ := header_bearer (l := "Proxy-".toList.reverse ++ l) hscheme hbearer hafter rfl
    refine ⟨"Proxy-".toList ++ out, fun c hc => ?_⟩
    have htext : headerStart "Proxy-Authorization".toList scheme ++ (c ++ after) =
        "Proxy-".toList ++ (headerStart "Authorization".toList scheme ++ (c ++ after)) := rfl
    have hnot : "Proxy-".toList.all (fun d => foldI d != 'a') = true := by decide
    rw [htext, Grouped.replaceAux_append, hout c hc]
    intro x d y hxy key n
    refine first_of_not_a (bne_iff_ne.1 (List.all_eq_true.1 hnot d ?_))
    rw [hxy]
    simp

/-! ### The text around the header -/

theorem not_mem_headerStart {c : Char} (hc : (isSchemeTokenChar c || c == ':' || c == ' ') = false) {name : String}
    (hname : name ∈ headerNames) {scheme : List Char} (hscheme : IsScheme scheme) :
    c ∉ headerStart name.toList scheme := by
  have hword : ∀ d ∈ name.toList, isSchemeTokenChar d = true := by
    simp only [headerNames, List.mem_cons, List.not_mem_nil, or_false] at hname
    rcases hname with rfl | rfl
    · exact List.all_eq_true.1 (by decide)
    · exact List.all_eq_true.1 (by decide)
  rw [Bool.or_eq_false_iff, Bool.or_eq_false_iff, beq_eq_false_iff_ne, beq_eq_false_iff_ne] at hc
  intro hmem
  simp only [headerStart, List.mem_append, List.mem_cons, List.not_mem_nil, or_false] at hmem
  have hscheme_or : isSchemeTokenChar c = true ∨ c = ':' ∨ c = ' ' := by
    rcases hmem with h | h | h | h | h
    · exact .inl (hword c h)
    · exact .inr (.inl h)
    · exact .inr (.inr h)
    · exact .inl (hscheme.2 c h)
    · exact .inr (.inr h)
  rcases hscheme_or with h | h | h
  · rw [hc.1.1] at h
    cases h
  · exact hc.1.2 h
  · exact hc.2 h

theorem IsToken.not_mem {c : List Char} (h : IsToken c) {d : Char} (hd : isTokenChar d = false) : d ∉ c := by
  intro hmem
  rw [h.2 d hmem] at hd
  cases hd

/-- The URL pass leaves the header alone, and its surroundings do not see the credentials. -/
theorem urlAux_header {before after : List Char} (hbefore : before = [] ∨ EndsInSpace before) (hafter : AtSpace after)
    {name : String} (hname : name ∈ headerNames) {scheme : List Char} (hscheme : IsScheme scheme) :
    ∃ after', AtSpace after' ∧ ∀ c, IsToken c → urlAux [] (before ++ (headerStart name.toList scheme ++ (c ++ after))) =
      urlAux [] before ++ (headerStart name.toList scheme ++ (c ++ after')) := by
  have hstart (l t : List Char) :
      urlAux l (headerStart name.toList scheme ++ t) = headerStart name.toList scheme ++ urlAux [' '] t := by
    have hnot : '/' ∉ name.toList ++ (':' :: ' ' :: scheme) := by
      have h := not_mem_headerStart (c := '/') (by decide) hname hscheme
      simp only [headerStart, List.mem_append, List.mem_cons, not_or] at h ⊢
      exact ⟨h.1, h.2.1, h.2.2.1, h.2.2.2.1⟩
    have hsplit : headerStart name.toList scheme ++ t = (name.toList ++ (':' :: ' ' :: scheme)) ++ ' ' :: t := by
      simp [headerStart]
    rw [hsplit, urlAux_cut (by decide), urlAux_of_not_mem (c := '/') (by decide) hnot]
    simp [headerStart]
  have hrest : ∃ after', AtSpace after' ∧ ∀ c, IsToken c → urlAux [' '] (c ++ after) = c ++ after' := by
    cases after with
    | nil =>
      refine ⟨[], hafter, fun c hc => ?_⟩
      rw [List.append_nil]
      exact urlAux_of_not_mem (c := ':') (by decide) (hc.not_mem (by decide))
    | cons d after =>
      refine ⟨d :: urlAux [d] after, hafter, fun c hc => ?_⟩
      rw [urlAux_cut (hafter d rfl), urlAux_of_not_mem (c := ':') (by decide) (hc.not_mem (by decide))]
  obtain ⟨after', hafter', hrest⟩ := hrest
  refine ⟨after', hafter', fun c hc => ?_⟩
  rcases hbefore with rfl | ⟨z, d, rfl, hd⟩
  · rw [List.nil_append, hstart, hrest c hc]
    rfl
  · have hbefore' : urlAux [] (z ++ [d]) = urlAux [] z ++ [d] := urlAux_cut hd
    rw [hbefore', List.append_assoc, List.append_assoc, List.singleton_append, List.singleton_append, urlAux_cut hd, hstart,
      hrest c hc]

theorem endsInSpace_urlAux {before : List Char} (h : before = [] ∨ EndsInSpace before) :
    EndsInSpace (urlAux [] before) ∨ urlAux [] before = [] := by
  rcases h with rfl | ⟨z, d, rfl, hd⟩
  · exact .inr rfl
  · exact .inl ⟨urlAux [] z, d, urlAux_cut hd, hd⟩

theorem head?_headerStart {name : String} (hname : name ∈ headerNames) (scheme : List Char) {c : Char}
    (h : (headerStart name.toList scheme).head? = some c) : isSpace c = false ∧ (c == ':' || c == '=') = false := by
  simp only [headerNames, List.mem_cons, List.not_mem_nil, or_false] at hname
  rcases hname with rfl | rfl
  · obtain rfl : 'A' = c := Option.some.inj h
    decide
  · obtain rfl : 'P' = c := Option.some.inj h
    decide

/-- The text ends in an authorization without a value. -/
def leavesOpen (before : String) : Bool := test (seq openAuthorization eol) before

theorem plain_openValue : Plain (seq (literalI "authorization") (seq assignPattern (opt bearerWord))) :=
  ⟨plain_literalBy _ _, ⟨trivial, trivial, trivial⟩, ⟨plain_literalBy _ _, trivial, trivial⟩, trivial⟩

theorem only_openAuthorization : Only (· ≠ '@') openAuthorization := by
  have hletters {s : String} (hs : s.toList.all (fun c => !isMark c) = true) (hat : s.toList.all (fun c => c != '@') = true) :
      Only (· ≠ '@') (literalI s) := by
    intro l w r hM c hc
    rintro rfl
    have hfold := forall₂_foldI.1 (matches_literalBy.1 hM)
    have hmem : foldI '@' ∈ s.toList := by
      rw [← hfold]
      exact List.mem_map_of_mem hc
    exact absurd (List.all_eq_true.1 hat _ hmem) (by decide)
  have hspaces : Only (· ≠ '@') (star (char isSpace)) :=
    (only_char fun c hc => by rintro rfl; exact absurd hc (by decide)).rep true
  have hassign : Only (· ≠ '@') assignPattern :=
    hspaces.seq ((only_char fun c hc => by rintro rfl; exact absurd hc (by decide)).seq hspaces)
  have hbearer : Only (· ≠ '@') bearerWord :=
    (hletters (by decide) (by decide)).seq (only_char fun c hc => by rintro rfl; exact absurd hc (by decide)).plus
  exact (only_look _).seq ((hletters (by decide) (by decide)).seq (hassign.seq hbearer.opt))

/-- The URL pass opens no authorization. -/
theorem not_open_urlAux {before : String} (h : leavesOpen before = false) (x w : List Char)
    (hxw : urlAux [] before.toList = x ++ w) : ¬ Matches openAuthorization (x.reverse ++ []) w [] := by
  intro hM
  obtain ⟨x', hbefore, hhead⟩ := suffix_of_urlAux hxw fun hmem => only_openAuthorization _ _ _ hM '@' hmem rfl
  obtain ⟨w₁, w₂, rfl, ⟨hbound, rfl⟩, hvalue⟩ := hM
  have hopen : Matches openAuthorization x'.reverse w₂ [] := by
    refine ⟨[], w₂, rfl, ⟨?_, rfl⟩, plain_openValue.matches_iff.1 hvalue⟩
    rw [List.append_nil, List.append_nil] at hhead
    simpa only [List.append_nil, hhead] using hbound
  have htest : leavesOpen before = true :=
    test_iff.2 ⟨x', w₂, [], by simpa using hbefore, w₂, [], (List.append_nil _).symm, hopen, rfl, rfl⟩
  rw [h] at htest
  cases htest

def headerText (before name scheme credentials after : String) : String :=
  before ++ (name ++ ": " ++ scheme ++ " " ++ (credentials ++ after))

theorem toList_headerText (before name scheme credentials after : String) :
    (headerText before name scheme credentials after).toList =
      before.toList ++ (headerStart name.toList scheme.toList ++ (credentials.toList ++ after.toList)) := by
  simp [headerText, headerStart]

/-- For another scheme than `Bearer` the credentials stay behind the marker. -/
theorem authorizationPass_scheme {scheme : String} (hscheme : IsScheme scheme.toList) (hbearer : ¬ isBearer scheme.toList)
    {c : Char} (hc : isTokenChar c = true) :
    authorizationPass (urlPass (headerText "" "Authorization" scheme (String.ofList [c]) "")) =
      String.ofList ("Authorization=[redacted] ".toList ++ [c]) := by
  have hname : "Authorization" ∈ headerNames := List.mem_cons_self
  have htext : (headerText "" "Authorization" scheme (String.ofList [c]) "").toList =
      headerStart "Authorization".toList scheme.toList ++ [c] := by
    rw [toList_headerText, String.toList_ofList]
    simp
  have hslash : '/' ∉ "Authorization".toList ++ (':' :: ' ' :: scheme.toList) := by
    have h := not_mem_headerStart (c := '/') (by decide) hname hscheme
    simp only [headerStart, List.mem_append, List.mem_cons, not_or] at h ⊢
    exact ⟨h.1, h.2.1, h.2.2.1, h.2.2.2.1⟩
  have hsplit : headerStart "Authorization".toList scheme.toList ++ [c] =
      ("Authorization".toList ++ (':' :: ' ' :: scheme.toList)) ++ ' ' :: [c] := by simp [headerStart]
  have hurl : urlAux [] (headerStart "Authorization".toList scheme.toList ++ [c]) =
      headerStart "Authorization".toList scheme.toList ++ [c] := by
    have hone : urlAux [' '] [c] = [c] := by
      refine urlAux_of_not_mem (c := ':') (by decide) fun h => ?_
      rw [← List.mem_singleton.1 h] at hc
      exact absurd hc (by decide)
    rw [hsplit, urlAux_cut (by decide), urlAux_of_not_mem (c := '/') (by decide) hslash, hone]
  have hfirst : authorizationPattern.first [] (("Authorization".toList ++ (':' :: ' ' :: scheme.toList)) ++ ' ' :: [c]) =
      some ("Authorization".toList, ("Authorization".toList ++ (':' :: ' ' :: scheme.toList)).length) := by
    have hheader := first_header (l := []) (r := ':' :: ([' '] ++ (scheme.toList ++ ' ' :: [c]))) rfl
    rw [head_run_scheme hscheme hbearer, Option.map_some] at hheader
    have hlen : ("Authorization".toList ++ ':' :: ([' '] ++ (scheme.toList ++ ' ' :: [c]))).length - (' ' :: [c]).length =
        ("Authorization".toList ++ (':' :: ' ' :: scheme.toList)).length := by
      simp only [List.length_append, List.length_cons, List.length_nil]
      omega
    rw [hlen] at hheader
    rw [← hheader]
    congr 1
  have hspace : ∀ key n, authorizationPattern.first (("Authorization".toList ++ (':' :: ' ' :: scheme.toList)).reverse ++ [])
      (' ' :: [c]) ≠ some (key, n + 1) := fun key n => first_of_not_a (by decide)
  rw [urlPass_eq, htext, hurl, authorizationPass, Grouped.replace, String.toList_ofList, hsplit,
    Grouped.replaceAux_hit (by simp) hfirst, Grouped.replaceAux_copy hspace, assigning_authorization.replaceAux_singleton]
  rfl

/-- The credentials of an authorization header are hidden exactly for the scheme `Bearer`, in every text whose part before
the header leaves no authorization of its own open. -/
theorem hidesCredentials_iff {scheme : String} (hscheme : IsScheme scheme.toList) :
    (∀ before after : String, before = "" ∨ EndsInSpace before.toList → AtSpace after.toList → leavesOpen before = false →
      ∀ name ∈ headerNames, ∀ c₁ c₂ : String, IsToken c₁.toList → IsToken c₂.toList →
        redactPotentialSecrets (headerText before name scheme c₁ after) =
          redactPotentialSecrets (headerText before name scheme c₂ after)) ↔
    isBearer scheme.toList := by
  constructor
  · intro h
    by_contra hbearer
    have htoken (c : Char) (hc : isTokenChar c = true) : IsToken (String.ofList [c]).toList := by
      rw [String.toList_ofList]
      exact ⟨List.cons_ne_nil c [], List.forall_mem_singleton.2 hc⟩
    have hab := h "" "" (.inl rfl) (fun c hc => by cases hc) (by decide +kernel) "Authorization" List.mem_cons_self
      (String.ofList ['a']) (String.ofList ['b']) (htoken 'a' (by decide)) (htoken 'b' (by decide))
    rw [redactPotentialSecrets_eq, redactPotentialSecrets_eq, keyedPasses, keyedPasses,
      authorizationPass_scheme hscheme hbearer (by decide), authorizationPass_scheme hscheme hbearer (by decide)] at hab
    exact absurd hab (by decide +kernel)
  · intro hbearer before after hbefore hafter hopen name hname c₁ c₂ hc₁ hc₂
    have hbefore' : before.toList = [] ∨ EndsInSpace before.toList := hbefore.imp_left fun h => by rw [h]; rfl
    obtain ⟨after', hafter', hurl⟩ := urlAux_header hbefore' hafter hname hscheme
    have hopen' := not_open_urlAux hopen
    obtain ⟨out, hout⟩ : ∃ out, ∀ c, IsToken c → authorizationPattern.replaceAux redactKeyed 0 []
        (urlAux [] before.toList ++ (headerStart name.toList scheme.toList ++ (c ++ after'))) = out := by
      refine authorization_uniform ⟨not_mem_headerStart (by decide) hname hscheme, not_mem_headerStart (by decide) hname hscheme⟩
        (by simp [headerStart]) ?_ ?_ (fun l hl => header_uniform hname hscheme hbearer hafter' hl) ?_ hopen'
      · exact fun c hc => (head?_headerStart hname scheme.toList hc).1
      · exact fun c hc => (head?_headerStart hname scheme.toList hc).2
      · exact (endsInSpace_urlAux hbefore').imp_right fun h => ⟨h, fun c hc => by cases hc⟩
    have hpass (c : String) (hc : IsToken c.toList) :
        authorizationPass (urlPass (headerText before name scheme c after)) = String.ofList out := by
      rw [urlPass_eq, toList_headerText, hurl _ hc, authorizationPass, Grouped.replace, String.toList_ofList, hout _ hc]
    rw [redactPotentialSecrets_eq, redactPotentialSecrets_eq, keyedPasses, keyedPasses, hpass c₁ hc₁, hpass c₂ hc₂]

theorem hidesCredentials_Bearer :
    (∀ before after : String, before = "" ∨ EndsInSpace before.toList → AtSpace after.toList → leavesOpen before = false →
      ∀ name ∈ headerNames, ∀ c₁ c₂ : String, IsToken c₁.toList → IsToken c₂.toList →
        redactPotentialSecrets (headerText before name "Bearer" c₁ after) =
          redactPotentialSecrets (headerText before name "Bearer" c₂ after)) ↔
    isBearer "Bearer".toList :=
  hidesCredentials_iff ⟨by decide, List.all_eq_true.1 (by decide)⟩

/-- With another scheme, and with `Bearer` behind an open authorization, the redacted texts differ. -/
theorem credentials_shown :
    redactPotentialSecrets "Authorization: Basic a" ≠ redactPotentialSecrets "Authorization: Basic b" ∧
      redactPotentialSecrets "Authorization:\nAuthorization: Bearer token=a" ≠
        redactPotentialSecrets "Authorization:\nAuthorization: Bearer ab" :=
  ⟨by decide +kernel, by decide +kernel⟩

end NginxAdmin.Web
