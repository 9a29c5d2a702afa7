import EpsilonNfa.Graph.BreadthFirst
import EpsilonNfa.Graph.Path
import Mathlib.Data.List.Nodup
import Mathlib.Data.List.TakeWhile

/-!
# The order of a breadth-first traversal

A traversal of a graph knows of a state its id and its targets, and nothing else. `Visits` is the
traversal of any nodes of which two such functions are given: a *key* for each node and the nodes
that come *next* after it. It says what is visited from a queue when some keys have been seen, and
`Graph.visits_breadthFirst` that a traversal of a graph is one of these.

What the functions cannot tell apart, a traversal does not tell apart either: nodes that correspond
are visited in the corresponding order (`Visits.map`). Nor does it matter whether a key is marked
when its node is visited or already when the node is put into the queue
(`Visits.exists_queue_of_fresh_eq_cons`).
-/

namespace EpsilonNfa

variable {ν μ κ κ' : Type}

/-- When the keys `seen` have been seen, the nodes that a breadth-first traversal visits from a
queue are those of the last list, in its order. -/
inductive Visits (key : ν → κ) (next : ν → List ν) : List κ → List ν → List ν → Prop
  | done (seen : List κ) : Visits key next seen [] []
  | skip {seen : List κ} {x : ν} {queue order : List ν} (old : key x ∈ seen)
      (rest : Visits key next seen queue order) : Visits key next seen (x :: queue) order
  | visit {seen : List κ} {x : ν} {queue order : List ν} (new : key x ∉ seen)
      (rest : Visits key next (key x :: seen) (queue ++ next x) order) :
      Visits key next seen (x :: queue) (x :: order)

namespace Visits

variable {key : ν → κ} {next : ν → List ν} {seen seen' : List κ} {queue order order' : List ν}

theorem unique (h : Visits key next seen queue order) (h' : Visits key next seen queue order') :
    order = order' := by
  induction h generalizing order' with
  | done => cases h'; rfl
  | skip old _ ih =>
    cases h' with
    | skip _ rest => exact ih rest
    | visit new _ => exact absurd old new
  | visit new _ ih =>
    cases h' with
    | skip old _ => exact absurd old new
    | visit _ rest => rw [ih rest]

/-- Only which keys have been seen matters, not their order. -/
theorem congr_seen (h : Visits key next seen queue order) (hseen : ∀ k, k ∈ seen ↔ k ∈ seen') :
    Visits key next seen' queue order := by
  induction h generalizing seen' with
  | done => exact .done seen'
  | skip old _ ih => exact .skip ((hseen _).1 old) (ih hseen)
  | visit new _ ih =>
    refine .visit (fun old => new ((hseen _).2 old)) (ih fun k => ?_)
    rw [List.mem_cons, List.mem_cons, hseen]

theorem skip_all {skipped : List ν} (hskipped : ∀ x ∈ skipped, key x ∈ seen)
    (h : Visits key next seen queue order) : Visits key next seen (skipped ++ queue) order := by
  induction skipped with
  | nil => exact h
  | cons x skipped ih =>
    exact .skip (hskipped x List.mem_cons_self)
      (ih fun y hy => hskipped y (List.mem_cons_of_mem _ hy))

/-- What holds of the queue and goes over from a node to the next ones holds of what is visited. -/
theorem forall_mem {P : ν → Prop} (h : Visits key next seen queue order) (hqueue : ∀ x ∈ queue, P x)
    (hnext : ∀ x, P x → ∀ y ∈ next x, P y) : ∀ x ∈ order, P x := by
  induction h with
  | done => exact hqueue
  | skip _ _ ih => exact ih fun y hy => hqueue y (List.mem_cons_of_mem _ hy)
  | @visit seen x queue order _ _ ih =>
    have hx : P x := hqueue x List.mem_cons_self
    have hrest : ∀ y ∈ order, P y := by
      refine ih fun y hy => ?_
      rcases List.mem_append.1 hy with hy | hy
      · exact hqueue y (List.mem_cons_of_mem _ hy)
      · exact hnext x hx y hy
    intro y hy
    rcases List.mem_cons.1 hy with rfl | hy
    · exact hx
    · exact hrest y hy

theorem key_not_mem (h : Visits key next seen queue order) : ∀ x ∈ order, key x ∉ seen := by
  induction h with
  | done => simp
  | skip _ _ ih => exact ih
  | visit new _ ih =>
    intro y hy
    rcases List.mem_cons.1 hy with rfl | hy
    · exact new
    · exact fun hseen => ih y hy (List.mem_cons_of_mem _ hseen)

/-- No key is visited twice. -/
theorem nodup_keys (h : Visits key next seen queue order) : (order.map key).Nodup := by
  induction h with
  | done => exact List.nodup_nil
  | skip _ _ ih => exact ih
  | visit _ rest ih =>
    rw [List.map_cons, List.nodup_cons]
    refine ⟨fun hmem => ?_, ih⟩
    obtain ⟨y, hy, hkey⟩ := List.mem_map.1 hmem
    exact rest.key_not_mem y hy (hkey ▸ List.mem_cons_self)

/-- In the end the keys of the queue have been seen. -/
theorem covers_queue (h : Visits key next seen queue order) :
    ∀ x ∈ queue, key x ∈ seen ∨ key x ∈ order.map key := by
  induction h with
  | done => simp
  | skip old _ ih =>
    intro y hy
    rcases List.mem_cons.1 hy with rfl | hy
    · exact Or.inl old
    · exact ih y hy
  | visit _ _ ih =>
    intro y hy
    rcases List.mem_cons.1 hy with rfl | hy
    · exact Or.inr List.mem_cons_self
    · rcases ih y (List.mem_append_left _ hy) with hseen | hmem
      · rcases List.mem_cons.1 hseen with heq | hseen
        · exact Or.inr (heq ▸ List.mem_cons_self)
        · exact Or.inl hseen
      · exact Or.inr (List.mem_cons_of_mem _ hmem)

/-- In the end the keys of all that comes next after a visited node have been seen. -/
theorem covers_next (h : Visits key next seen queue order) :
    ∀ x ∈ order, ∀ y ∈ next x, key y ∈ seen ∨ key y ∈ order.map key := by
  induction h with
  | done => simp
  | skip _ _ ih => exact ih
  | @visit seen x queue order _ rest ih =>
    have hcons : ∀ y, key y ∈ key x :: seen ∨ key y ∈ order.map key →
        key y ∈ seen ∨ key y ∈ (x :: order).map key := by
      intro y hy
      rw [List.map_cons, List.mem_cons]
      rw [List.mem_cons] at hy
      tauto
    intro z hz y hy
    rcases List.mem_cons.1 hz with rfl | hz
    · exact hcons y (rest.covers_queue y (List.mem_append_right _ hy))
    · exact hcons y (ih z hz y hy)

/-- Nodes that correspond are visited in the corresponding order. The correspondence is `f` for
nodes and `e` for keys, and need not be one to one beyond the nodes that can be met. -/
theorem map (key' : μ → κ') (next' : μ → List μ) {P : ν → Prop} (f : ν → μ) (e : κ → κ')
    (h : Visits key next seen queue order) (hqueue : ∀ x ∈ queue, P x)
    (hclosed : ∀ x, P x → ∀ y ∈ next x, P y) (hkey : ∀ x, P x → key' (f x) = e (key x))
    (hnext : ∀ x ∈ order, next' (f x) = (next x).map f)
    (hseen : ∀ x, P x → e (key x) ∈ seen.map e → key x ∈ seen)
    (hinj : ∀ x y, P x → P y → e (key x) = e (key y) → key x = key y) :
    Visits key' next' (seen.map e) (queue.map f) (order.map f) := by
  induction h with
  | done => exact .done _
  | skip old _ ih =>
    refine .skip ?_ (ih (fun y hy => hqueue y (List.mem_cons_of_mem _ hy)) hnext hseen)
    rw [hkey _ (hqueue _ List.mem_cons_self)]
    exact List.mem_map.2 ⟨_, old, rfl⟩
  | @visit seen x queue order new _ ih =>
    have hx : P x := hqueue x List.mem_cons_self
    have hrest := ih
      (fun y hy => (List.mem_append.1 hy).elim (fun hy => hqueue y (List.mem_cons_of_mem _ hy))
        (hclosed x hx y))
      (fun y hy => hnext y (List.mem_cons_of_mem _ hy)) fun y hy hmem => by
        rcases List.mem_cons.1 hmem with heq | hmem
        · exact List.mem_cons.2 (Or.inl (hinj y x hy hx heq))
        · exact List.mem_cons_of_mem _ (hseen y hy hmem)
    rw [List.map_cons, List.map_append, ← hnext x List.mem_cons_self, ← hkey x hx] at hrest
    refine .visit (fun old => new (hseen x hx ?_)) hrest
    rwa [hkey x hx] at old

end Visits

/-! ## Keys that are marked early -/

variable [DecidableEq κ]

/-- The nodes of a list whose keys are new, the first one for each key. -/
def fresh (key : ν → κ) (seen : List κ) : List ν → List ν
  | [] => []
  | x :: l => if key x ∈ seen then fresh key seen l else x :: fresh key (seen ++ [key x]) l

section Fresh

variable {key : ν → κ} {next : ν → List ν} {seen : List κ} {l queue rest order : List ν} {x : ν}

theorem fresh_cons_of_mem (h : key x ∈ seen) : fresh key seen (x :: l) = fresh key seen l := by
  rw [fresh, if_pos h]

theorem fresh_cons_of_not_mem (h : key x ∉ seen) :
    fresh key seen (x :: l) = x :: fresh key (seen ++ [key x]) l := by
  rw [fresh, if_neg h]

theorem fresh_append (key : ν → κ) (seen : List κ) (l l' : List ν) :
    fresh key seen (l ++ l') =
      fresh key seen l ++ fresh key (seen ++ (fresh key seen l).map key) l' := by
  induction l generalizing seen with
  | nil => simp [fresh]
  | cons x l ih =>
    by_cases hx : key x ∈ seen
    · rw [List.cons_append, fresh_cons_of_mem hx, fresh_cons_of_mem hx, ih]
    · rw [List.cons_append, fresh_cons_of_not_mem hx, fresh_cons_of_not_mem hx, ih,
        List.cons_append, List.map_cons]
      simp only [List.append_assoc, List.singleton_append]

theorem mem_of_mem_fresh (h : x ∈ fresh key seen l) : x ∈ l ∧ key x ∉ seen := by
  induction l generalizing seen with
  | nil => cases h
  | cons y l ih =>
    by_cases hy : key y ∈ seen
    · rw [fresh_cons_of_mem hy] at h
      exact ⟨List.mem_cons_of_mem _ (ih h).1, (ih h).2⟩
    · rw [fresh_cons_of_not_mem hy] at h
      rcases List.mem_cons.1 h with rfl | h
      · exact ⟨List.mem_cons_self, hy⟩
      · exact ⟨List.mem_cons_of_mem _ (ih h).1, fun hx => (ih h).2 (List.mem_append_left _ hx)⟩

/-- A new key is that of one of the new nodes. -/
theorem exists_mem_fresh (hx : x ∈ l) (hnew : key x ∉ seen) :
    ∃ y ∈ fresh key seen l, key y = key x := by
  induction l generalizing seen with
  | nil => cases hx
  | cons y l ih =>
    by_cases hy : key y ∈ seen
    · rw [fresh_cons_of_mem hy]
      rcases List.mem_cons.1 hx with rfl | hx
      · exact absurd hy hnew
      · exact ih hx hnew
    · rw [fresh_cons_of_not_mem hy]
      by_cases hkey : key x = key y
      · exact ⟨y, List.mem_cons_self, hkey.symm⟩
      · have hmem : x ∈ l := (List.mem_cons.1 hx).resolve_left fun heq => hkey (heq ▸ rfl)
        have hnew' : key x ∉ seen ++ [key y] := by
          rw [List.mem_append, List.mem_singleton]
          exact not_or_intro hnew hkey
        obtain ⟨z, hz, hzx⟩ := ih hmem hnew'
        exact ⟨z, List.mem_cons_of_mem _ hz, hzx⟩

/-- In a queue that has new nodes, the first one comes behind nodes that would be skipped. -/
theorem exists_of_fresh_eq_cons (h : fresh key seen l = x :: rest) :
    ∃ skipped l', l = skipped ++ x :: l' ∧ (∀ y ∈ skipped, key y ∈ seen) ∧ key x ∉ seen ∧
      fresh key (seen ++ [key x]) l' = rest := by
  induction l with
  | nil => cases h
  | cons y l ih =>
    by_cases hy : key y ∈ seen
    · rw [fresh_cons_of_mem hy] at h
      obtain ⟨skipped, l', rfl, hskipped, hnew, hrest⟩ := ih h
      exact ⟨y :: skipped, l', rfl, List.forall_mem_cons.2 ⟨hy, hskipped⟩, hnew, hrest⟩
    · rw [fresh_cons_of_not_mem hy] at h
      cases h
      exact ⟨[], l, rfl, by simp, hy, rfl⟩

theorem Visits.of_fresh_eq_nil (h : fresh key seen queue = []) :
    Visits key next seen queue [] := by
  induction queue with
  | nil => exact .done seen
  | cons x queue ih =>
    by_cases hx : key x ∈ seen
    · rw [fresh_cons_of_mem hx] at h
      exact .skip hx (ih h)
    · rw [fresh_cons_of_not_mem hx] at h
      cases h

/-- The new nodes of a queue are visited first, and then it is the turn of those that come next
after them. -/
theorem Visits.round (h : Visits key next seen (queue ++ rest) order) :
    ∃ order', order = fresh key seen queue ++ order' ∧
      Visits key next (seen ++ (fresh key seen queue).map key)
        (rest ++ (fresh key seen queue).flatMap next) order' := by
  induction queue generalizing seen rest order with
  | nil => exact ⟨order, rfl, by simpa [fresh] using h⟩
  | cons x queue ih =>
    cases h with
    | skip old h =>
      rw [fresh_cons_of_mem old]
      exact ih h
    | visit new h =>
      have hseen : ∀ k, k ∈ key x :: seen ↔ k ∈ seen ++ [key x] := by simp [or_comm]
      have hqueue : (queue ++ rest) ++ next x = queue ++ (rest ++ next x) := List.append_assoc ..
      obtain ⟨order', rfl, h'⟩ := ih (hqueue ▸ h.congr_seen hseen)
      rw [fresh_cons_of_not_mem new]
      refine ⟨order', rfl, ?_⟩
      simpa using h'

/-- Whoever puts nodes into the queue only if their keys are new, and marks the keys then, visits
the same nodes in the same order. -/
theorem Visits.exists_queue_of_fresh_eq_cons (next : ν → List ν)
    (h : fresh key seen queue = x :: rest) :
    ∃ queue', fresh key (seen ++ [key x]) queue' =
        rest ++ fresh key (seen ++ key x :: rest.map key) (next x) ∧
      ∀ order, Visits key next (seen ++ [key x]) queue' order →
        Visits key next seen queue (x :: order) := by
  obtain ⟨skipped, l, rfl, hskipped, hnew, hfresh⟩ := exists_of_fresh_eq_cons h
  refine ⟨l ++ next x, ?_, fun order horder => ?_⟩
  · rw [fresh_append, hfresh]
    simp only [List.append_assoc, List.singleton_append]
  · refine .skip_all hskipped (.visit hnew (horder.congr_seen fun k => ?_))
    simp [or_comm]

end Fresh

/-! ## Traversals of graphs -/

/-- What a traversal of a graph visits: it knows states by their ids. -/
abbrev Graph.Visits (g : Graph) : List Int → List Ref → List Ref → Prop :=
  EpsilonNfa.Visits (fun r => (g.state r).id) fun r => (g.state r).targets

/-- The states of a list whose ids are new, the first one for each id. -/
abbrev Graph.fresh (g : Graph) : List Int → List Ref → List Ref :=
  EpsilonNfa.fresh fun r => (g.state r).id

namespace BreadthFirst

variable {g : Graph} {w w' : BreadthFirst} {r : Ref}

theorem next?_eq_none_iff : w.next? g = none ↔ ∀ q ∈ w.pending g, (g.state q).id ∈ w.visited := by
  unfold next?
  constructor
  · intro h
    split at h
    · next hdrop => simpa using List.dropWhile_eq_nil_iff.1 hdrop
    · cases h
  · intro h
    rw [List.dropWhile_eq_nil_iff.2 (by simpa using h)]

theorem pending_of_next? (h : w.next? g = some (r, w')) :
    w'.pending g = w'.queue ++ (g.state r).targets := by
  obtain ⟨skipped, rest, -, -, -, rfl⟩ := next?_eq_some_iff.1 h
  rfl

/-- What is left of a traversal is visited from what is pending. -/
theorem visits_toList (g : Graph) (w : BreadthFirst) :
    g.Visits w.visited (w.pending g) (w.toList g) := by
  fun_induction BreadthFirst.toList w g with
  | case1 w hnone =>
    rw [← List.append_nil (w.pending g)]
    exact .skip_all (next?_eq_none_iff.1 hnone) (.done _)
  | case2 w r w' hsome ih =>
    rw [pending_of_next? hsome] at ih
    obtain ⟨skipped, rest, hpending, hskipped, hnew, rfl⟩ := next?_eq_some_iff.1 hsome
    rw [hpending]
    exact .skip_all hskipped (.visit hnew ih)

end BreadthFirst

namespace Graph

variable {g g' : Graph} {s r t : Ref}

theorem visits_breadthFirst (g : Graph) (s : Ref) : g.Visits [] [s] (g.breadthFirst s) :=
  BreadthFirst.visits_toList g (.startAt s)

/-- The ids that a traversal meets, in the order in which it meets them. -/
def idsBelow (g : Graph) (s : Ref) : List Int :=
  (g.breadthFirst s).map fun r => (g.state r).id

theorem breadthFirst_eq_cons (g : Graph) (s : Ref) : ∃ rest, g.breadthFirst s = s :: rest := by
  have h := g.visits_breadthFirst s
  generalize g.breadthFirst s = order at h
  cases h with
  | skip old => cases old
  | visit => exact ⟨_, rfl⟩

theorem idsBelow_eq_cons (g : Graph) (s : Ref) : ∃ rest, g.idsBelow s = (g.state s).id :: rest := by
  obtain ⟨rest, h⟩ := g.breadthFirst_eq_cons s
  exact ⟨_, by rw [idsBelow, h, List.map_cons]⟩

theorem nodup_idsBelow (g : Graph) (s : Ref) : (g.idsBelow s).Nodup :=
  (g.visits_breadthFirst s).nodup_keys

theorem reaches_of_mem_breadthFirst (h : r ∈ g.breadthFirst s) : g.Reaches s r := by
  refine (g.visits_breadthFirst s).forall_mem (P := g.Reaches s) ?_ (fun _ hr _ ht => hr.step ht) r h
  intro q hq
  rw [List.mem_singleton.1 hq]
  exact .refl

/-- The ids behind a state that is visited are met. -/
theorem id_mem_idsBelow (hr : r ∈ g.breadthFirst s) (ht : t ∈ (g.state r).targets) :
    (g.state t).id ∈ g.idsBelow s :=
  ((g.visits_breadthFirst s).covers_next r hr t ht).resolve_left List.not_mem_nil

/-- A traversal reads no more than the states below its start. -/
theorem breadthFirst_of_state_eq (h : ∀ r, g.Reaches s r → g'.state r = g.state r) :
    g'.breadthFirst s = g.breadthFirst s := by
  have hmap := (g.visits_breadthFirst s).map (P := g.Reaches s) (fun r => (g'.state r).id)
    (fun r => (g'.state r).targets) id id
    (fun r hr => List.mem_singleton.1 hr ▸ .refl) (fun _ hr _ ht => hr.step ht)
    (fun r hr => congrArg State.id (h r hr))
    (fun r hr => by simp [h r (reaches_of_mem_breadthFirst hr)])
    (fun _ _ hmem => by simp at hmem) fun _ _ _ _ heq => heq
  simp only [List.map_id] at hmap
  exact (g'.visits_breadthFirst s).unique hmap

end Graph

end EpsilonNfa
