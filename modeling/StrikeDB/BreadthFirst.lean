import Mathlib.Data.List.Pairwise
import Mathlib.Data.List.Nodup
import Mathlib.Tactic

/-!
# Breadth-first traversal

A traversal with a queue, up to a depth, over any function that lists the successors of a
node.  Each node is queued with its depth when it is first seen.

**Results.**
* `expand_spec`: what the successors of a node add.
* `Invariant.skip`, `Invariant.grow`: one step keeps the invariant.
* `traverse_spec`: the traversal ends, and returns each node within the depth once, at its
  shortest distance.
-/

namespace StrikeDB
namespace BreadthFirst

variable {α : Type} [DecidableEq α]

structure Search (α : Type) where
  seen : List α
  order : List α
  q : List (α × Nat)

/-- One successor: queued if it was not seen before. -/
def push (depth : Nat) (s : Search α) (n : α) : Search α :=
  if n ∈ s.seen then s
  else { seen := n :: s.seen, order := s.order ++ [n], q := s.q ++ [(n, depth + 1)] }

def expand (depth : Nat) (ns : List α) (s : Search α) : Search α := ns.foldl (push depth) s

/-- Nothing is returned where the fuel does not suffice. -/
def loop (next : α → List α) (max_depth : Nat) : Nat → Search α → Option (List α)
  | 0, _ => none
  | fuel + 1, s =>
      match s.q with
      | [] => some s.order
      | (cur, depth) :: q =>
          if depth ≥ max_depth then loop next max_depth fuel { s with q := q }
          else loop next max_depth fuel (expand depth (next cur) { s with q := q })

def traverse (next : α → List α) (max_depth fuel : Nat) (start : α) : Option (List α) :=
  loop next max_depth fuel { seen := [start], order := [start], q := [(start, 0)] }

/-! ## Paths -/

/-- A path of so many steps. -/
inductive Path (edge : α → α → Prop) (start : α) : Nat → α → Prop where
  | start : Path edge start 0 start
  | step {k : Nat} {x y : α} (h : Path edge start k x) (hxy : edge x y) : Path edge start (k + 1) y

/-- The length of the shortest path. -/
structure Shortest (edge : α → α → Prop) (start : α) (k : Nat) (x : α) : Prop where
  path : Path edge start k x
  least : ∀ j, Path edge start j x → k ≤ j

/-- What a traversal returns: each node within the depth once, by its distance. -/
def Traversed (edge : α → α → Prop) (max_depth : Nat) (start : α) (order : List α) : Prop :=
  order.Nodup ∧ (∀ x, x ∈ order ↔ ∃ k, k ≤ max_depth ∧ Path edge start k x) ∧
    ∃ dist : List (α × Nat), dist.map Prod.fst = order ∧
      dist.Pairwise (fun a b => a.2 ≤ b.2) ∧ ∀ e ∈ dist, Shortest edge start e.2 e.1

/-! ## One step -/

/-- What the successors of a node add: those not seen before, once each. -/
theorem expand_spec (depth : Nat) (ns : List α) (s : Search α) :
    ∃ added, (expand depth ns s).order = s.order ++ added ∧
      (expand depth ns s).q = s.q ++ added.map (·, depth + 1) ∧
      (∀ x, x ∈ (expand depth ns s).seen ↔ x ∈ s.seen ∨ x ∈ added) ∧
      added.Nodup ∧ (∀ x ∈ added, x ∉ s.seen ∧ x ∈ ns) ∧
      ∀ x ∈ ns, x ∈ s.seen ∨ x ∈ added := by
  induction ns generalizing s with
  | nil =>
      refine ⟨[], ?_, ?_, ?_, List.nodup_nil, nofun, nofun⟩
      · exact (List.append_nil _).symm
      · exact (List.append_nil _).symm
      · simp [expand]
  | cons n ns ih =>
      rw [expand, List.foldl_cons, push]
      split
      · next hseen =>
          obtain ⟨added, horder, hq, hmem, hnodup, hnew, hall⟩ := ih s
          refine ⟨added, horder, hq, hmem, hnodup, ?_, ?_⟩
          · exact fun x hx => ⟨(hnew x hx).1, List.mem_cons_of_mem _ (hnew x hx).2⟩
          · exact List.forall_mem_cons.mpr ⟨Or.inl hseen, hall⟩
      · next hseen =>
          obtain ⟨added, horder, hq, hmem, hnodup, hnew, hall⟩ := ih
            { seen := n :: s.seen, order := s.order ++ [n], q := s.q ++ [(n, depth + 1)] }
          have hfresh : n ∉ added := fun hn => (hnew n hn).1 List.mem_cons_self
          refine ⟨n :: added, ?_, ?_, ?_, List.nodup_cons.mpr ⟨hfresh, hnodup⟩, ?_, ?_⟩
          · refine horder.trans ?_
            simp
          · refine hq.trans ?_
            simp
          · intro x
            refine (hmem x).trans ?_
            simp only [List.mem_cons]
            tauto
          · refine List.forall_mem_cons.mpr ⟨⟨hseen, List.mem_cons_self⟩, ?_⟩
            intro x hx
            obtain ⟨hnot, hns⟩ := hnew x hx
            exact ⟨fun h => hnot (List.mem_cons_of_mem _ h), List.mem_cons_of_mem _ hns⟩
          · refine List.forall_mem_cons.mpr ⟨Or.inr List.mem_cons_self, ?_⟩
            intro x hx
            rcases hall x hx with h | h
            · rcases List.mem_cons.mp h with rfl | h
              · exact Or.inr List.mem_cons_self
              · exact Or.inl h
            · exact Or.inr (List.mem_cons_of_mem _ h)

variable {edge : α → α → Prop} {next : α → List α} {max_depth : Nat} {start : α}

/-- Every node so far with its depth, those that were taken from the queue and those that are
in it.  The depths are the distances, and the successors of what was taken were seen. -/
structure Invariant (edge : α → α → Prop) (max_depth : Nat) (start : α)
    (taken : List (α × Nat)) (s : Search α) : Prop where
  order : s.order = (taken ++ s.q).map Prod.fst
  seen : ∀ x, x ∈ s.seen ↔ x ∈ s.order
  nodup : s.order.Nodup
  begins : (start, 0) ∈ taken ++ s.q
  sorted : (taken ++ s.q).Pairwise fun a b => a.2 ≤ b.2
  /-- The queue spans at most two depths. -/
  near : ∀ c ∈ s.q.head?, ∀ e ∈ s.q, e.2 ≤ c.2 + 1
  shortest : ∀ e ∈ taken ++ s.q, Shortest edge start e.2 e.1
  within : ∀ e ∈ taken ++ s.q, e.2 ≤ max_depth
  closed : ∀ e ∈ taken, e.2 < max_depth → ∀ y, edge e.1 y → y ∈ s.order

omit [DecidableEq α] in
omit [DecidableEq α] in
theorem invariant_init :
    Invariant edge max_depth start []
      { seen := [start], order := [start], q := [(start, 0)] } where
  order := rfl
  seen := fun _ => Iff.rfl
  nodup := List.nodup_singleton _
  begins := List.mem_singleton_self _
  sorted := List.pairwise_singleton _ _
  near := by
    intro c hc e he
    rw [List.mem_singleton.mp he]
    exact Nat.zero_le _
  shortest := by
    intro e he
    rw [List.mem_singleton.mp he]
    exact ⟨.start, fun _ _ => Nat.zero_le _⟩
  within := by
    intro e he
    rw [List.mem_singleton.mp he]
    exact Nat.zero_le _
  closed := nofun

/-- What is nearer than the head of the queue was seen. -/
theorem Invariant.nearer {taken : List (α × Nat)} {s : Search α}
    (h : Invariant edge max_depth start taken s) {bound : Nat} (hbound : bound ≤ max_depth)
    (hq : ∀ e ∈ s.q, bound ≤ e.2) {k : Nat} {x : α} (hk : k ≤ bound)
    (hpath : Path edge start k x) : x ∈ s.order := by
  induction hpath with
  | start =>
      rw [h.order]
      exact List.mem_map_of_mem h.begins
  | @step k x y hpath hxy ih =>
      have hx := ih (Nat.le_of_succ_le hk)
      rw [h.order, List.mem_map] at hx
      obtain ⟨e, he, rfl⟩ := hx
      have hle := (h.shortest e he).least k hpath
      rcases List.mem_append.mp he with htaken | hqueue
      · exact h.closed e htaken (by omega) y hxy
      · have hge := hq e hqueue
        omega

section Pop

variable {taken : List (α × Nat)} {s : Search α} {cur : α} {depth : Nat} {q : List (α × Nat)}

omit [DecidableEq α] in
/-- What is in the queue is not nearer than its head, and at most one step further. -/
theorem Invariant.bounds (h : Invariant edge max_depth start taken s) (hq : s.q = (cur, depth) :: q) :
    (∀ e ∈ taken, e.2 ≤ depth) ∧ (∀ e ∈ q, depth ≤ e.2 ∧ e.2 ≤ depth + 1) ∧ depth ≤ max_depth ∧
      Shortest edge start depth cur := by
  have hsorted := h.sorted
  rw [hq, List.pairwise_append, List.pairwise_cons] at hsorted
  obtain ⟨_, ⟨hhead, _⟩, hcross⟩ := hsorted
  have hmem : (cur, depth) ∈ taken ++ s.q := by simp [hq]
  refine ⟨fun e he => hcross e he (cur, depth) List.mem_cons_self, ?_, h.within _ hmem,
    h.shortest _ hmem⟩
  intro e he
  have hnear := h.near (cur, depth) (by rw [hq]; rfl) e (by rw [hq]; exact List.mem_cons_of_mem _ he)
  exact ⟨hhead e he, hnear⟩

omit [DecidableEq α] in
/-- Past the depth the head of the queue is only taken. -/
theorem Invariant.skip (h : Invariant edge max_depth start taken s) (hq : s.q = (cur, depth) :: q)
    (hdeep : depth ≥ max_depth) :
    Invariant edge max_depth start (taken ++ [(cur, depth)]) { s with q := q } := by
  obtain ⟨_, hqueue, _, _⟩ := h.bounds hq
  have hall : taken ++ [(cur, depth)] ++ q = taken ++ s.q := by
    rw [hq, List.append_assoc, List.singleton_append]
  refine ⟨?_, h.seen, h.nodup, ?_, ?_, ?_, ?_, ?_, ?_⟩
  · rw [hall]
    exact h.order
  · rw [hall]
    exact h.begins
  · rw [hall]
    exact h.sorted
  · intro c hc e he
    have hc' := (hqueue c (List.mem_of_head? hc)).1
    have he' := (hqueue e he).2
    omega
  · rw [hall]
    exact h.shortest
  · rw [hall]
    exact h.within
  · intro e he hlt
    rcases List.mem_append.mp he with he | he
    · exact h.closed e he hlt
    · rw [List.mem_singleton.mp he] at hlt
      exact absurd hlt (Nat.not_lt.mpr hdeep)

/-- Within the depth its successors are queued. -/
theorem Invariant.grow (hnext : ∀ x y, y ∈ next x ↔ edge x y)
    (h : Invariant edge max_depth start taken s) (hq : s.q = (cur, depth) :: q)
    (hlt : depth < max_depth) :
    Invariant edge max_depth start (taken ++ [(cur, depth)])
      (expand depth (next cur) { s with q := q }) := by
  obtain ⟨htaken, hqueue, _, hcur⟩ := h.bounds hq
  obtain ⟨added, horder, hq', hseen, hnodup, hnew, hall⟩ :=
    expand_spec depth (next cur) { s with q := q }
  have hsplit : taken ++ [(cur, depth)] ++ (q ++ added.map (·, depth + 1)) =
      (taken ++ s.q) ++ added.map (·, depth + 1) := by
    rw [hq]
    simp
  -- a node with a path that is no longer than to the head was seen
  have hunseen : ∀ x ∈ added, ∀ j, Path edge start j x → depth + 1 ≤ j := by
    intro x hx j hpath
    by_contra hle
    refine (hnew x hx).1 ((h.seen x).mpr (h.nearer (Nat.le_of_lt hlt) ?_ (by omega) hpath))
    intro e he
    rw [hq] at he
    rcases List.mem_cons.mp he with rfl | he
    · exact Nat.le_refl _
    · exact (hqueue e he).1
  have hold : ∀ e ∈ taken ++ s.q, e.2 ≤ depth + 1 := by
    intro e he
    rcases List.mem_append.mp he with he | he
    · exact Nat.le_succ_of_le (htaken e he)
    · rw [hq] at he
      rcases List.mem_cons.mp he with rfl | he
      · exact Nat.le_succ _
      · exact (hqueue e he).2
  have hadded : ∀ e ∈ added.map (·, depth + 1), e.1 ∈ added ∧ e.2 = depth + 1 := by
    intro e he
    obtain ⟨x, hx, rfl⟩ := List.mem_map.mp he
    exact ⟨hx, rfl⟩
  refine ⟨?_, ?_, ?_, ?_, ?_, ?_, ?_, ?_, ?_⟩
  · rw [hq', hsplit, List.map_append, ← h.order, horder, List.map_map]
    exact congrArg (s.order ++ ·) (List.map_id added).symm
  · intro x
    rw [hseen, horder, List.mem_append, h.seen]
  · rw [horder, List.nodup_append]
    refine ⟨h.nodup, hnodup, ?_⟩
    rintro a ha b hb rfl
    exact (hnew a hb).1 ((h.seen a).mpr ha)
  · rw [hq', hsplit]
    exact List.mem_append_left _ h.begins
  · rw [hq', hsplit, List.pairwise_append]
    refine ⟨h.sorted, ?_, ?_⟩
    · rw [List.pairwise_map]
      exact List.pairwise_of_forall fun _ _ => Nat.le_refl _
    · intro e he e' he'
      rw [(hadded e' he').2]
      exact hold e he
  · intro c hc e he
    have hmem := List.mem_of_head? hc
    rw [hq', List.mem_append] at hmem he
    have hc' : depth ≤ c.2 := by
      rcases hmem with hmem | hmem
      · exact (hqueue c hmem).1
      · rw [(hadded c hmem).2]
        exact Nat.le_succ _
    have he' : e.2 ≤ depth + 1 := by
      rcases he with he | he
      · exact (hqueue e he).2
      · rw [(hadded e he).2]
    omega
  · rw [hq', hsplit]
    intro e he
    rcases List.mem_append.mp he with he | he
    · exact h.shortest e he
    · obtain ⟨hx, hdepth⟩ := hadded e he
      rw [hdepth]
      exact ⟨hcur.path.step ((hnext _ _).mp (hnew _ hx).2), hunseen _ hx⟩
  · rw [hq', hsplit]
    intro e he
    rcases List.mem_append.mp he with he | he
    · exact h.within e he
    · rw [(hadded e he).2]
      exact hlt
  · intro e he hdepth y hy
    rw [horder, List.mem_append]
    rcases List.mem_append.mp he with he | he
    · exact Or.inl (h.closed e he hdepth y hy)
    · rw [List.mem_singleton.mp he] at hy
      rcases hall y ((hnext _ _).mpr hy) with hin | hin
      · exact Or.inl ((h.seen y).mp hin)
      · exact Or.inr hin

end Pop

/-! ## The whole traversal -/

/-- With an empty queue everything within the depth was seen. -/
theorem Invariant.traversed {taken : List (α × Nat)} {s : Search α}
    (h : Invariant edge max_depth start taken s) (hq : s.q = []) :
    Traversed edge max_depth start s.order := by
  have horder := h.order
  have hshortest := h.shortest
  have hwithin := h.within
  have hsorted := h.sorted
  rw [hq, List.append_nil] at horder hshortest hwithin hsorted
  refine ⟨h.nodup, fun x => ⟨?_, ?_⟩, taken, horder.symm, hsorted, hshortest⟩
  · intro hx
    rw [horder, List.mem_map] at hx
    obtain ⟨e, he, rfl⟩ := hx
    exact ⟨e.2, hwithin e he, (hshortest e he).path⟩
  · rintro ⟨k, hk, hpath⟩
    refine h.nearer (Nat.le_refl _) ?_ hk hpath
    rw [hq]
    exact nofun

omit [DecidableEq α] in
/-- No more can be taken or queued than there are nodes. -/
theorem Invariant.length_le {nodes : List α}
    (hnodes : ∀ x, x = start ∨ (∃ y, edge y x) → x ∈ nodes) {taken : List (α × Nat)}
    {s : Search α} (h : Invariant edge max_depth start taken s) :
    taken.length + s.q.length ≤ nodes.length := by
  have hsubset : s.order ⊆ nodes := by
    intro x hx
    rw [h.order, List.mem_map] at hx
    obtain ⟨e, he, rfl⟩ := hx
    refine hnodes _ ?_
    have hpath := (h.shortest e he).path
    generalize e.2 = k at hpath
    cases hpath with
    | start => exact Or.inl rfl
    | step _ hxy => exact Or.inr ⟨_, hxy⟩
  have hlength := (h.nodup.subperm hsubset).length_le
  rwa [h.order, List.length_map, List.length_append] at hlength

/-- As long as there are nodes that were not taken, there is fuel. -/
theorem loop_spec (hnext : ∀ x y, y ∈ next x ↔ edge x y) {nodes : List α}
    (hnodes : ∀ x, x = start ∨ (∃ y, edge y x) → x ∈ nodes) {fuel : Nat}
    {taken : List (α × Nat)} {s : Search α} (h : Invariant edge max_depth start taken s)
    (hfuel : nodes.length < fuel + taken.length) :
    ∃ order, loop next max_depth fuel s = some order ∧ Traversed edge max_depth start order := by
  induction fuel generalizing taken s with
  | zero =>
      have hlength := h.length_le hnodes
      omega
  | succ fuel ih =>
      rw [loop]
      cases hq : s.q with
      | nil => exact ⟨s.order, rfl, h.traversed hq⟩
      | cons c q =>
          obtain ⟨cur, depth⟩ := c
          have hmore : nodes.length < fuel + (taken ++ [(cur, depth)]).length := by
            rw [List.length_append, List.length_singleton]
            omega
          dsimp only
          split
          · next hdeep => exact ih (h.skip hq hdeep) hmore
          · next hlt => exact ih (h.grow hnext hq (Nat.lt_of_not_le hlt)) hmore

/-- The traversal ends, and returns each node within the depth once, at its shortest distance. -/
theorem traverse_spec (hnext : ∀ x y, y ∈ next x ↔ edge x y) {nodes : List α}
    (hnodes : ∀ x, x = start ∨ (∃ y, edge y x) → x ∈ nodes) {fuel : Nat}
    (hfuel : nodes.length < fuel) :
    ∃ order, traverse next max_depth fuel start = some order ∧
      Traversed edge max_depth start order :=
  loop_spec hnext hnodes invariant_init (by simpa using hfuel)

end BreadthFirst
end StrikeDB
