import EpsilonNfa.Proofs.Path
import EpsilonNfa.Proofs.Search

/-!
# Preorder

The search keeps a stack, on which a state may stand several times, and marks an id when a state
with it is taken off. `Graph.preorderFrom` has no stack: it is the recursion that passes over states
with marked ids, visits a state, and goes on into its targets in their order, each with the marks
that the ones before it have left. The targets that the search puts on the stack are those into
which the recursion goes, and what lies under them waits for it to return
(`Graph.preorderFrom_append`). So a search asks its test about the states of the preorder, one after
another, until one passes, whatever else the test does (`Graph.searchFrom_eq_findM?`).
-/

namespace EpsilonNfa.Graph

variable {g : Graph} {marked marked' : List Int} {l l' stack : List Ref} {start r t : Ref}

/-! ## The recursion -/

theorem length_unvisited_le (g : Graph) (hsub : ∀ i ∈ marked, i ∈ marked') :
    (g.unvisited marked').length ≤ (g.unvisited marked).length := by
  rw [unvisited_eq_filter hsub]
  exact List.length_filter_le ..

/-- The marks after the states of a list have been visited, latest first. -/
def markAll (g : Graph) (visited : List Ref) (marked : List Int) : List Int :=
  (visited.map fun r => (g.state r).id).reverse ++ marked

theorem markAll_cons (g : Graph) (r : Ref) (l : List Ref) (marked : List Int) :
    g.markAll (r :: l) marked = g.markAll l ((g.state r).id :: marked) := by
  simp [markAll]

theorem markAll_append (g : Graph) (l l' : List Ref) (marked : List Int) :
    g.markAll (l ++ l') marked = g.markAll l' (g.markAll l marked) := by
  simp [markAll]

/-- The states that the recursion visits from those of a list, one after another, when some ids are
marked. -/
def preorderFrom (g : Graph) (marked : List Int) : List Ref → List Ref
  | [] => []
  | r :: rest =>
    if _ : (g.state r).id ∈ marked then g.preorderFrom marked rest
    else
      let visited := r :: g.preorderFrom ((g.state r).id :: marked) (g.state r).targets
      visited ++ g.preorderFrom (g.markAll visited marked) rest
termination_by l => ((g.unvisited marked).length, l.length)
decreasing_by
  · rw [Prod.lex_def]
    exact Or.inr ⟨rfl, Nat.lt_succ_self _⟩
  -- a reference that names no state has an id, but no targets
  · have hsub : ∀ i ∈ marked, i ∈ (g.state r).id :: marked := fun _ hi => List.mem_cons_of_mem _ hi
    have hle := g.length_unvisited_le hsub
    rw [Prod.lex_def]
    by_cases hr : r ∈ g
    · exact Or.inl (length_unvisited_lt hsub hr (by assumption) List.mem_cons_self)
    · have hnil : (g.state r).targets = [] := by rw [state_eq_default hr]; rfl
      simp only [hnil, List.length_nil, List.length_cons]
      omega
  · have hsub : ∀ i ∈ marked, i ∈ g.markAll visited marked := fun _ hi => List.mem_append_right _ hi
    rw [Prod.lex_def]
    exact (Nat.lt_or_eq_of_le (g.length_unvisited_le hsub)).imp id fun heq =>
      ⟨heq, Nat.lt_succ_self _⟩

/-- The states that the recursion visits from `start`. -/
def preorder (g : Graph) (start : Ref) : List Ref :=
  g.preorderFrom [] [start]

theorem preorderFrom_nil (g : Graph) (marked : List Int) : g.preorderFrom marked [] = [] := by
  rw [preorderFrom]

theorem preorderFrom_cons_of_mem (hr : (g.state r).id ∈ marked) (l : List Ref) :
    g.preorderFrom marked (r :: l) = g.preorderFrom marked l := by
  rw [preorderFrom, dif_pos hr]

theorem preorderFrom_cons_of_not_mem (hr : (g.state r).id ∉ marked) (l : List Ref) :
    g.preorderFrom marked (r :: l) =
      r :: g.preorderFrom ((g.state r).id :: marked) (g.state r).targets ++
        g.preorderFrom (g.markAll (g.preorderFrom ((g.state r).id :: marked) (g.state r).targets)
          ((g.state r).id :: marked)) l := by
  rw [preorderFrom, dif_neg hr, ← markAll_cons]

/-- The recursion from two lists visits the second one with the marks that the first one leaves. -/
theorem preorderFrom_append (g : Graph) (marked : List Int) (l l' : List Ref) :
    g.preorderFrom marked (l ++ l') = g.preorderFrom marked l ++
      g.preorderFrom (g.markAll (g.preorderFrom marked l) marked) l' := by
  fun_induction preorderFrom g marked l with
  | case1 marked => rfl
  | case2 marked r rest hr ih =>
    rw [List.cons_append, preorderFrom_cons_of_mem hr, ih]
  | case3 marked r rest hr visited _ ih =>
    rw [List.cons_append, preorderFrom_cons_of_not_mem hr, ← markAll_cons, ih, markAll_append,
      List.append_assoc]

/-- Into the targets of a state the recursion goes before it comes to what waits. -/
theorem preorderFrom_cons (hr : (g.state r).id ∉ marked) (stack : List Ref) :
    g.preorderFrom marked (r :: stack) =
      r :: g.preorderFrom ((g.state r).id :: marked) ((g.state r).targets ++ stack) := by
  rw [preorderFrom_cons_of_not_mem hr, preorderFrom_append, List.cons_append]

/-! ## What is visited -/

/-- A test that lets nothing pass refuses the whole preorder. -/
theorem refused_preorderFrom (g : Graph) (stack : List Ref) (marked : List Int) :
    g.Refused (fun _ => false) stack marked (g.preorderFrom marked stack) := by
  -- along the turns of the search, not the calls of the recursion: a state is visited before all
  -- that the stack still holds
  induction stack, marked using searchFrom.induct g with
  | case1 marked =>
    rw [preorderFrom_nil]
    exact .nil marked
  | case2 marked r rest hr ih =>
    rw [preorderFrom_cons_of_mem hr]
    exact ih.skip hr
  | case3 marked r rest hr ih =>
    rw [preorderFrom_cons hr]
    exact ih.visit Bool.false_ne_true

/-- No id is marked twice. -/
theorem nodup_markAll_preorderFrom (g : Graph) (stack : List Ref) (h : marked.Nodup) :
    (g.markAll (g.preorderFrom marked stack) marked).Nodup := by
  induction stack, marked using searchFrom.induct g with
  | case1 marked =>
    rw [preorderFrom_nil]
    exact h
  | case2 marked r rest hr ih =>
    rw [preorderFrom_cons_of_mem hr]
    exact ih h
  | case3 marked r rest hr ih =>
    rw [preorderFrom_cons hr, markAll_cons]
    exact ih (List.nodup_cons.2 ⟨hr, h⟩)

theorem nodup_preorder (g : Graph) (start : Ref) : (g.preorder start).Nodup := by
  have hids := g.nodup_markAll_preorderFrom [start] List.nodup_nil
  rw [markAll, List.append_nil, List.nodup_reverse] at hids
  exact hids.of_map _

theorem mem_preorder (hd : g.DistinctIds start) : r ∈ g.preorder start ↔ g.Reaches start r :=
  (g.refused_preorderFrom [start] []).mem_iff hd

/-! ## The search -/

/-- A search asks about the states of the preorder until one passes. -/
theorem searchFrom_eq_findM? {m : Type → Type} [Monad m] (g : Graph) (test : Ref → m Bool)
    (stack : List Ref) (marked : List Int) :
    g.searchFrom test stack marked = (g.preorderFrom marked stack).findM? test := by
  induction stack, marked using searchFrom.induct g with
  | case1 marked =>
    rw [searchFrom, preorderFrom_nil]
    rfl
  | case2 marked r rest hr ih =>
    rw [searchFrom, dif_pos hr, ih, preorderFrom_cons_of_mem hr]
  | case3 marked r rest hr ih =>
    rw [searchFrom, dif_neg hr, ih, preorderFrom_cons hr, List.findM?]
    congr 1
    funext passed
    cases passed <;> rfl

theorem findFirst?_eq_findM? {m : Type → Type} [Monad m] (g : Graph) (start : Ref)
    (test : Ref → m Bool) : g.findFirst? start test = (g.preorder start).findM? test :=
  g.searchFrom_eq_findM? test [start] []

/-! ## Tests that remember -/

section Recording

variable {σ : Type} {test : Ref → StateM σ Bool} {s s' : σ}

/-- The test that keeps, beside what it remembers, a list of the states that it is asked about. -/
def recording (test : Ref → StateM σ Bool) (r : Ref) : StateM (List Ref × σ) Bool :=
  modifyGet fun (asked, s) =>
    match (test r).run s with
    | (answer, s) => (answer, asked ++ [r], s)

/-- What a test answers when it is asked about all states of a list one after another, whatever it
answers. -/
def answers (test : Ref → StateM σ Bool) (l : List Ref) (s : σ) : List Bool :=
  ((l.mapM test).run s).1

/-- How many states of a list a test refuses before it lets one pass. -/
def refusals (test : Ref → StateM σ Bool) (l : List Ref) (s : σ) : Nat :=
  (answers test l s).idxOf true

/-- What a test remembers after it has been asked about the states of a list. -/
def remembered (test : Ref → StateM σ Bool) (l : List Ref) (s : σ) : σ :=
  ((l.mapM test).run s).2

theorem answers_cons (test : Ref → StateM σ Bool) (r : Ref) (l : List Ref) (s : σ) :
    answers test (r :: l) s = ((test r).run s).1 :: answers test l ((test r).run s).2 := by
  unfold answers
  rw [List.mapM_cons]
  rfl

theorem remembered_nil (test : Ref → StateM σ Bool) (s : σ) : remembered test [] s = s := rfl

theorem remembered_cons (test : Ref → StateM σ Bool) (r : Ref) (l : List Ref) (s : σ) :
    remembered test (r :: l) s = remembered test l ((test r).run s).2 := by
  unfold remembered
  rw [List.mapM_cons]
  rfl

theorem refusals_cons (test : Ref → StateM σ Bool) (r : Ref) (l : List Ref) (s : σ) :
    refusals test (r :: l) s =
      if ((test r).run s).1 then 0 else refusals test l ((test r).run s).2 + 1 := by
  rw [refusals, answers_cons]
  cases ((test r).run s).1 <;> simp [refusals]

theorem run_recording (test : Ref → StateM σ Bool) (r : Ref) (asked : List Ref) (s : σ) :
    (recording test r).run (asked, s) =
      (((test r).run s).1, asked ++ [r], ((test r).run s).2) := rfl

theorem run_findM?_recording_cons (test : Ref → StateM σ Bool) (r : Ref) (l asked : List Ref)
    (s : σ) :
    ((r :: l).findM? (recording test)).run (asked, s) =
      if ((test r).run s).1 then (some r, asked ++ [r], ((test r).run s).2)
      else (l.findM? (recording test)).run (asked ++ [r], ((test r).run s).2) := by
  rw [List.findM?, StateT.run_bind, run_recording]
  cases ((test r).run s).1 <;> rfl

/-- Asked about the states of a list until one passes, a test is asked about those that it refuses
and the one behind them. -/
theorem run_findM?_recording (test : Ref → StateM σ Bool) (l asked : List Ref) (s : σ) :
    (l.findM? (recording test)).run (asked, s) =
      (l[refusals test l s]?, asked ++ l.take (refusals test l s + 1),
        remembered test (l.take (refusals test l s + 1)) s) := by
  induction l generalizing asked s with
  | nil =>
    rw [List.take_nil, List.append_nil]
    rfl
  | cons r l ih =>
    rw [run_findM?_recording_cons, refusals_cons]
    cases hanswer : ((test r).run s).1 with
    | true => simp [remembered_nil, remembered_cons]
    | false => simp [ih, remembered_cons]

theorem length_answers (test : Ref → StateM σ Bool) (l : List Ref) (s : σ) :
    (answers test l s).length = l.length := by
  induction l generalizing s with
  | nil => rfl
  | cons r l ih => rw [answers_cons, List.length_cons, List.length_cons, ih]

/-- There is no state behind those that a test refuses when it refuses them all. -/
theorem getElem?_refusals_eq_none_iff :
    l[refusals test l s]? = none ↔ ∀ answer ∈ answers test l s, answer = false := by
  rw [List.getElem?_eq_none_iff, refusals, ← length_answers test l s]
  constructor
  · intro h answer hanswer
    cases answer with
    | false => rfl
    | true => exact absurd (List.idxOf_lt_length_of_mem hanswer) (Nat.not_lt.2 h)
  · intro h
    refine Nat.not_lt.1 fun hlt => Bool.false_ne_true ?_
    exact (h true (List.idxOf_lt_length_iff.1 hlt)).symm

/-- A search for a test by name fails when the test refuses the whole preorder. -/
theorem run_find_recording (g : Graph) (start : Ref) (name : String) (test : Ref → StateM σ Bool)
    (s : σ) :
    (g.find start name (recording test)).run ([], s) =
      ((g.preorder start)[refusals test (g.preorder start) s]?.elim
          (.error (.noMatch (g.state start).id name)) .ok,
        (g.preorder start).take (refusals test (g.preorder start) s + 1),
        remembered test ((g.preorder start).take (refusals test (g.preorder start) s + 1)) s) := by
  have hsearch := run_findM?_recording test (g.preorder start) [] s
  rw [List.nil_append] at hsearch
  rw [find, findFirst?_eq_findM?, StateT.run_bind, hsearch]
  cases (g.preorder start)[refusals test (g.preorder start) s]? <;> rfl

end Recording

theorem findById_eq_error_iff (hd : g.DistinctIds start) (id : Int) :
    g.findById start id = .error (.unreachable id (g.state start).id) ↔
      ∀ t, g.Reaches start t → (g.state t).id ≠ id := by
  constructor
  · intro h t ht hid
    rw [(findById_eq_ok_iff hd).2 ⟨ht, hid⟩] at h
    cases h
  · intro h
    cases hfind : g.findById start id with
    | ok t =>
      obtain ⟨ht, hid⟩ := (findById_eq_ok_iff hd).1 hfind
      exact absurd hid (h t ht)
    | error e =>
      unfold findById at hfind
      split at hfind <;> cases hfind
      rfl

/-- A search asks its test, whatever this does or remembers, about the states of the preorder until
one passes: it gives that one, and fails just when none does. Where ids tell the states below the
start apart, the preorder is all of them, each once, and so an id finds the state that has it. -/
theorem find_preorder {σ : Type} (g : Graph) (start : Ref) (name : String)
    (test : Ref → StateM σ Bool) (s : σ) :
    (g.find start name (recording test)).run ([], s) =
        ((g.preorder start)[refusals test (g.preorder start) s]?.elim
            (.error (.noMatch (g.state start).id name)) .ok,
          (g.preorder start).take (refusals test (g.preorder start) s + 1),
          remembered test ((g.preorder start).take (refusals test (g.preorder start) s + 1)) s) ∧
      ((g.preorder start)[refusals test (g.preorder start) s]? = none ↔
        ∀ answer ∈ answers test (g.preorder start) s, answer = false) ∧
      (∀ {m : Type → Type} [Monad m] (test : Ref → m Bool),
        g.findFirst? start test = (g.preorder start).findM? test) ∧
      (g.DistinctIds start →
        (g.preorder start).Nodup ∧ (∀ r, r ∈ g.preorder start ↔ g.Reaches start r) ∧
        ∀ id,
          (∀ t, g.findById start id = .ok t ↔ g.Reaches start t ∧ (g.state t).id = id) ∧
          (g.findById start id = .error (.unreachable id (g.state start).id) ↔
            ∀ t, g.Reaches start t → (g.state t).id ≠ id)) := by
  refine ⟨g.run_find_recording start name test s, getElem?_refusals_eq_none_iff,
    g.findFirst?_eq_findM? start, fun hd => ?_⟩
  exact ⟨g.nodup_preorder start, fun r => g.mem_preorder hd, fun id =>
    ⟨fun t => findById_eq_ok_iff hd, findById_eq_error_iff hd id⟩⟩

/-- Five states: the last one lies below the second, from which an edge leads back as well. -/
def branching : Graph where
  states := #[{ id := 0, onSymbol := { entries := [(.text "b", ⟨1⟩), (.text "a", ⟨2⟩)],
                                       letters := by decide, distinct := by decide },
                onEpsilon := [⟨3⟩] },
    { id := 1, onEpsilon := [⟨4⟩, ⟨0⟩] },
    { id := 2 }, { id := 3, isFinal := true }, { id := 4, isFinal := true }]
  closed := by decide

theorem preorder_branching : branching.preorder ⟨0⟩ = [⟨0⟩, ⟨1⟩, ⟨4⟩, ⟨2⟩, ⟨3⟩] := by
  have h₀ : (branching.state ⟨0⟩).targets = [⟨1⟩, ⟨2⟩, ⟨3⟩] := rfl
  have h₁ : (branching.state ⟨1⟩).targets = [⟨4⟩, ⟨0⟩] := rfl
  have hleaf : ∀ r ∈ [(⟨2⟩ : Ref), ⟨3⟩, ⟨4⟩], (branching.state r).targets = [] := by decide
  simp (disch := decide) only [preorder, preorderFrom_cons, preorderFrom_cons_of_mem,
    preorderFrom_nil, h₀, h₁, hleaf, List.cons_append, List.nil_append]

/-- A test that counts its calls passes the third state that it is asked about. -/
theorem find_preorder_branching :
    let third : Ref → StateM Nat Bool := fun _ => modifyGet fun n => (n == 2, n + 1)
    branching.DistinctIds ⟨0⟩ ∧
      (branching.find ⟨0⟩ "third" (recording third)).run ([], 0) =
        (.ok ⟨4⟩, [⟨0⟩, ⟨1⟩, ⟨4⟩], 3) ∧
      branching.findById ⟨0⟩ 3 = .ok ⟨3⟩ := by
  intro third
  have hd : branching.DistinctIds ⟨0⟩ := .of_nodup (by decide) (by decide)
  obtain ⟨hrun, -, -, hids⟩ := find_preorder branching ⟨0⟩ "third" third 0
  obtain ⟨-, hmem, hid⟩ := hids hd
  rw [preorder_branching] at hrun hmem
  exact ⟨hd, hrun, ((hid 3).1 ⟨3⟩).2 ⟨(hmem ⟨3⟩).1 (by decide), rfl⟩⟩

end EpsilonNfa.Graph
