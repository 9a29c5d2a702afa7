import EpsilonNfa.Proofs.Joining
import EpsilonNfa.Proofs.Renaming

/-!
# Lines of states

The automaton of a word is a line: each state but the last has one edge, which leads to the next,
and only the last is final. What lies on a line is what lies below its first state
(`Graph.Line.reaches_iff`), the word that is read along it is the only one that is accepted
(`Graph.Line.accepts_iff`), and two lines that are joined are a longer one (`Graph.Line.joined`).
-/

namespace EpsilonNfa

/-- The labels along the automaton of a word: its letters, with an epsilon edge between any two. -/
def Symbol.spaced (word : List Symbol) : List Symbol :=
  word.intersperse .epsilon

namespace Symbol

variable {x y : Symbol} {u v word : List Symbol}

@[simp] theorem spaced_singleton (x : Symbol) : spaced [x] = [x] := rfl

theorem spaced_cons (x : Symbol) (hv : v ≠ []) : spaced (x :: v) = x :: .epsilon :: spaced v := by
  cases v with
  | nil => exact absurd rfl hv
  | cons y v => rfl

theorem spaced_append (hu : u ≠ []) (hv : v ≠ []) :
    spaced (u ++ v) = spaced u ++ .epsilon :: spaced v := by
  induction u with
  | nil => exact absurd rfl hu
  | cons x u ih =>
    cases u with
    | nil => exact spaced_cons x hv
    | cons y u =>
      rw [List.cons_append, spaced_cons x (by simp), ih (by simp), spaced_cons x (by simp)]
      rfl

theorem length_spaced (hword : word ≠ []) : (spaced word).length + 1 = 2 * word.length := by
  rw [spaced, List.length_intersperse]
  have := List.length_pos_iff.2 hword
  omega

/-- The letters of a word are the labels that read something. -/
theorem filter_spaced (hword : .epsilon ∉ word) :
    (spaced word).filter (· ≠ .epsilon) = word := by
  induction word with
  | nil => rfl
  | cons x word ih =>
    rw [List.mem_cons, not_or] at hword
    obtain ⟨hx, hrest⟩ := hword
    by_cases hempty : word = []
    · rw [hempty, spaced_singleton, List.filter_cons_of_pos (by simpa using Ne.symm hx),
        List.filter_nil]
    · rw [spaced_cons x hempty, List.filter_cons_of_pos (by simpa using Ne.symm hx),
        List.filter_cons_of_neg (by simp), ih hrest]

end Symbol

namespace Graph

/-- A line of states with the given labels between them that ends in `stop`. Each state has no edge
but the one to the next, and the last one, which has none, is the only final one. -/
inductive Line (g : Graph) (stop : Ref) : List Symbol → List Ref → Prop
  | last (edges : (g.state stop).edges = []) (final : (g.state stop).isFinal = true) :
      Line g stop [] [stop]
  | step {s t : Ref} {x : Symbol} {labels : List Symbol} {rest : List Ref}
      (edges : (g.state s).edges = [(x, t)]) (notFinal : (g.state s).isFinal = false)
      (line : Line g stop labels (t :: rest)) : Line g stop (x :: labels) (s :: t :: rest)

variable {g g' : Graph} {stop stop' s q r t : Ref} {f : Ref → Ref} {x : Symbol}
variable {labels labels' word : List Symbol} {states rest rest' : List Ref}

/-! ## States with at most one edge -/

theorem accepts_of_edges_eq_nil (hedges : (g.state s).edges = [])
    (hfinal : (g.state s).isFinal = true) : g.Accepts s word ↔ word = [] := by
  constructor
  · intro haccepts
    obtain ⟨t, ht, -⟩ := haccepts
    cases ht with
    | nil => rfl
    | pass edge =>
      rw [State.mem_onEpsilon, hedges] at edge
      cases edge
    | letter edge =>
      rw [State.mem_entries, hedges] at edge
      cases edge.1
  · intro hword
    rw [hword]
    exact ⟨s, .nil s, hfinal⟩

theorem accepts_of_epsilon_edge (hedges : (g.state s).edges = [(.epsilon, t)])
    (hfinal : (g.state s).isFinal = false) : g.Accepts s word ↔ g.Accepts t word := by
  constructor
  · intro haccepts
    obtain ⟨q, hq, hqfinal⟩ := haccepts
    cases hq with
    | nil =>
      rw [hfinal] at hqfinal
      cases hqfinal
    | pass edge rest =>
      rw [State.mem_onEpsilon, hedges, List.mem_singleton] at edge
      cases edge
      exact ⟨q, rest, hqfinal⟩
    | letter edge =>
      rw [State.mem_entries, hedges, List.mem_singleton] at edge
      exact absurd (congrArg Prod.fst edge.1) edge.2
  · intro haccepts
    obtain ⟨q, hq, hqfinal⟩ := haccepts
    refine ⟨q, .pass ?_ hq, hqfinal⟩
    rw [State.mem_onEpsilon, hedges]
    exact List.mem_singleton_self _

theorem accepts_of_letter_edge (hx : x ≠ .epsilon) (hedges : (g.state s).edges = [(x, t)])
    (hfinal : (g.state s).isFinal = false) :
    g.Accepts s word ↔ ∃ y v, x.Same y ∧ g.Accepts t v ∧ word = y :: v := by
  constructor
  · intro haccepts
    obtain ⟨q, hq, hqfinal⟩ := haccepts
    cases hq with
    | nil =>
      rw [hfinal] at hqfinal
      cases hqfinal
    | pass edge =>
      rw [State.mem_onEpsilon, hedges, List.mem_singleton] at edge
      exact absurd (congrArg Prod.fst edge).symm hx
    | letter edge same rest =>
      rw [State.mem_entries, hedges, List.mem_singleton] at edge
      cases edge.1
      exact ⟨_, _, same, ⟨q, rest, hqfinal⟩, rfl⟩
  · intro hword
    obtain ⟨y, v, same, ⟨q, hq, hqfinal⟩, rfl⟩ := hword
    refine ⟨q, .letter (x := x) ?_ same hq, hqfinal⟩
    rw [State.mem_entries, hedges]
    exact ⟨List.mem_singleton_self _, hx⟩

namespace Line

theorem length_eq (h : g.Line stop labels states) : states.length = labels.length + 1 := by
  induction h with
  | last => rfl
  | step _ _ _ ih => rw [List.length_cons, ih, List.length_cons]

theorem stop_mem (h : g.Line stop labels states) : stop ∈ states := by
  induction h with
  | last => exact List.mem_singleton_self stop
  | step _ _ _ ih => exact List.mem_cons_of_mem _ ih

theorem getElem?_stop (h : g.Line stop labels states) : states[labels.length]? = some stop := by
  induction h with
  | last => rfl
  | step _ _ _ ih => rw [List.length_cons, List.getElem?_cons_succ, ih]

theorem isFinal_stop (h : g.Line stop labels states) : (g.state stop).isFinal = true := by
  induction h with
  | last _ final => exact final
  | step _ _ _ ih => exact ih

theorem isFinal_iff (h : g.Line stop labels states) (hq : q ∈ states) :
    (g.state q).isFinal = true ↔ q = stop := by
  refine ⟨fun hfinal => ?_, fun heq => heq ▸ h.isFinal_stop⟩
  induction h with
  | last => exact List.mem_singleton.1 hq
  | step _ notFinal _ ih =>
    rcases List.mem_cons.1 hq with rfl | hq
    · rw [notFinal] at hfinal
      cases hfinal
    · exact ih hq

/-- The states of a line are those below its first one. -/
theorem reaches_iff (h : g.Line stop labels (s :: rest)) : g.Reaches s q ↔ q ∈ s :: rest := by
  generalize hstates : s :: rest = states at h
  induction h generalizing s rest q with
  | last edges =>
    cases hstates
    rw [List.mem_singleton]
    constructor
    · intro hq
      induction hq with
      | refl => rfl
      | step _ edge ih =>
        rw [ih, ← State.map_snd_edges, edges] at edge
        cases edge
    · rintro rfl
      exact .refl
  | @step s t x _ rest edges _ _ ih =>
    cases hstates
    have htargets : (g.state s).targets = [t] := by rw [← State.map_snd_edges, edges]; rfl
    constructor
    · intro hq
      -- a path from `s` that has left it goes through `t`
      have hbehind : q = s ∨ g.Reaches t q := by
        induction hq with
        | refl => exact Or.inl rfl
        | step _ edge ih =>
          rcases ih with rfl | hr
          · rw [htargets] at edge
            exact Or.inr (List.mem_singleton.1 edge ▸ .refl)
          · exact Or.inr (hr.step edge)
      exact hbehind.elim (fun heq => heq ▸ List.mem_cons_self)
        fun hq => List.mem_cons_of_mem _ ((ih rfl).1 hq)
    · intro hq
      rcases List.mem_cons.1 hq with rfl | hq
      · exact .refl
      · exact .trans (.step .refl (by rw [htargets]; exact List.mem_singleton_self t)) ((ih rfl).2 hq)

/-- There is one line from a state. -/
theorem unique (h : g.Line stop labels (s :: rest)) (h' : g.Line stop' labels' (s :: rest')) :
    labels = labels' ∧ rest = rest' := by
  generalize hstates : s :: rest = states at h
  induction h generalizing s rest labels' rest' with
  | last edges =>
    cases hstates
    cases h' with
    | last => exact ⟨rfl, rfl⟩
    | step edges' =>
      rw [edges] at edges'
      cases edges'
  | step edges _ _ ih =>
    cases hstates
    cases h' with
    | last edges' =>
      rw [edges] at edges'
      cases edges'
    | step edges' _ line' =>
      rw [edges] at edges'
      cases edges'
      obtain ⟨rfl, rfl⟩ := ih line' rfl
      exact ⟨rfl, rfl⟩

theorem exists_of_mem (h : g.Line stop labels states) (hq : q ∈ states) :
    ∃ labels' rest', g.Line stop labels' (q :: rest') ∧ labels'.length ≤ labels.length := by
  induction h with
  | last edges final =>
    cases List.mem_singleton.1 hq
    exact ⟨[], [], .last edges final, Nat.le_refl _⟩
  | step edges notFinal line ih =>
    rcases List.mem_cons.1 hq with rfl | hq
    · exact ⟨_, _, .step edges notFinal line, Nat.le_refl _⟩
    · obtain ⟨labels', rest', line', hle⟩ := ih hq
      exact ⟨labels', rest', line', Nat.le_succ_of_le hle⟩

/-- A line does not come back: from a state that occurs twice there would be two lines, one of them
shorter. -/
theorem nodup (h : g.Line stop labels states) : states.Nodup := by
  induction h with
  | last => exact List.nodup_singleton _
  | step edges notFinal line ih =>
    refine List.nodup_cons.2 ⟨fun hmem => ?_, ih⟩
    obtain ⟨labels', rest', line', hle⟩ := line.exists_of_mem hmem
    obtain ⟨rfl, -⟩ := line'.unique (.step edges notFinal line)
    exact Nat.not_succ_le_self _ hle

theorem distinctIds (h : g.Line stop labels (s :: rest))
    (hids : ((s :: rest).map fun r => (g.state r).id).Nodup) : g.DistinctIds s := by
  intro r t hr ht hid
  exact List.inj_on_of_nodup_map hids (h.reaches_iff.1 hr) (h.reaches_iff.1 ht) hid

/-- An edge between two states that had none, the second of them final. -/
theorem of_addsEdge {i j : Int} (hg : g.AddsEdge s x t g') (hne : t ≠ s)
    (hs : g.state s = .isolated i false) (ht : g.state t = .isolated j true) :
    g'.Line t [x] [s, t] := by
  have hstop : g'.state t = .isolated j true := (hg.state_eq hne).trans ht
  refine .step (x := x) ?_ ?_ (.last ?_ ?_)
  · rw [hg.edges_eq, hs]
    rfl
  · rw [hg.isFinal_eq, hs]
    rfl
  · rw [hstop]
    rfl
  · rw [hstop]
    rfl

/-! ## Moving a line -/

theorem renames (h : g.Line stop labels (s :: rest)) (hf : g.Renames s f g') :
    g'.Line (f stop) labels ((s :: rest).map f) := by
  generalize hstates : s :: rest = states at h
  induction h generalizing s rest with
  | last edges final =>
    cases hstates
    refine .last ?_ ((hf.isFinal_eq .refl).trans final)
    rw [hf.edges_eq .refl, edges]
    rfl
  | @step s t x _ _ edges notFinal _ ih =>
    cases hstates
    refine .step (x := x) ?_ ((hf.isFinal_eq .refl).trans notFinal) (ih (hf.of_reaches ?_) rfl)
    · rw [hf.edges_eq .refl, edges]
      rfl
    · exact .step .refl (by rw [← State.map_snd_edges, edges]; exact List.mem_singleton_self t)

theorem of_state_eq (h : g.Line stop labels states) (hstate : ∀ r ∈ states, g'.state r = g.state r) :
    g'.Line stop labels states := by
  induction h with
  | last edges final =>
    have hstop := hstate _ (List.mem_singleton_self _)
    exact .last (by rw [hstop, edges]) (by rw [hstop, final])
  | step edges notFinal _ ih =>
    have hs := hstate _ List.mem_cons_self
    exact .step (by rw [hs, edges]) (by rw [hs, notFinal])
      (ih fun r hr => hstate r (List.mem_cons_of_mem _ hr))

/-- A line that is joined at its end to the beginning of another goes on along that one. -/
theorem joined {p : Ref} (h : g.Line p labels states) (h' : g.Line stop labels' (q :: rest))
    (hj : g.Joined p q g') (hp : p ∉ q :: rest) :
    g'.Line stop (labels ++ .epsilon :: labels') (states ++ q :: rest) := by
  have hbehind : g'.Line stop labels' (q :: rest) :=
    h'.of_state_eq fun r hr => hj.state_eq fun heq => hp (heq ▸ hr)
  induction h with
  | last edges _ => exact .step (by rw [hj.edges_eq, edges]; rfl) hj.isFinal_eq hbehind
  | @step s t x labels rest edges notFinal line ih =>
    -- only the last state changes, and `s` is not the last because it is not final
    have hs : g'.state s = g.state s := by
      refine hj.state_eq ?_
      rintro rfl
      rw [line.isFinal_stop] at notFinal
      cases notFinal
    exact .step (by rw [hs, edges]) (by rw [hs, notFinal]) ih

/-! ## Reading a line -/

/-- What is accepted at the beginning of a line are the letters along it. -/
theorem accepts_iff (h : g.Line stop labels (s :: rest)) :
    g.Accepts s word ↔ List.Forall₂ Symbol.Same (labels.filter (· ≠ .epsilon)) word := by
  generalize hstates : s :: rest = states at h
  induction h generalizing s rest word with
  | last edges final =>
    cases hstates
    rw [List.filter_nil, List.forall₂_nil_left_iff, accepts_of_edges_eq_nil edges final]
  | @step s t x labels rest edges notFinal line ih =>
    cases hstates
    by_cases hx : x = .epsilon
    · rw [hx] at edges ⊢
      rw [List.filter_cons_of_neg (by simp), accepts_of_epsilon_edge edges notFinal, ih rfl]
    · rw [List.filter_cons_of_pos (by simpa using hx), List.forall₂_cons_left_iff,
        accepts_of_letter_edge hx edges notFinal]
      simp only [ih rfl]

end Line

end Graph

end EpsilonNfa
