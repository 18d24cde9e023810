import Mathlib.Data.Set.Insert
import StrikeDB.MemoryGraph

/-!
# StrikeDB: the two directions of the graph over whole runs

Edges are linked and unlinked in any order, with any names.  Each operation writes twice, and
either write can fail or be the last before a crash; what was written is there after recovery.

**Results.**
* `agree_of_stored`: what the lists and a traversal show, from what is stored.
* `agreeing_iff`: the two directions agree in every state of a run if and only if its steps fit.
-/

namespace StrikeDB
namespace Memory

/-! ## Steps -/

inductive GraphOp where
  | link (e : Edge) (weight : UInt32)
  | unlink (e : Edge)

namespace GraphOp

def edge : GraphOp → Edge
  | link e _ => e
  | unlink e => e

def prog : GraphOp → MemProg Bool
  | link e weight => Memory.link e.src e.dst e.rel weight
  | unlink e => Memory.unlink e.src e.dst e.rel

/-- What the operation writes under both keys. -/
def value : GraphOp → Value
  | link _ weight => .bytes (weightBytes weight)
  | unlink _ => .tombstone

end GraphOp

/-- The state where the calls have been answered in turn, until there is a crash. -/
def cut {α : Type} : MemProg α → List Bool → State → State
  | .ret _, _, s => s
  | .call _ _, [], s => s
  | .call c next, ok :: oks, s => cut (next (s.answer ok c).2) oks (s.answer ok c).1

structure GraphStep where
  op : GraphOp
  /-- Which calls succeed, as many as there are before a crash. -/
  oks : List Bool

/-- How many of the two writes were made. -/
def GraphStep.written (t : GraphStep) : Nat :=
  match t.oks with
  | true :: true :: _ => 2
  | true :: _ => 1
  | _ => 0

/-- The store, and the edges that were linked and not unlinked since. -/
structure Graph where
  store : State
  linked : Set Edge

def Graph.step (g : Graph) (t : GraphStep) : Graph :=
  { store := cut t.op.prog t.oks g.store
    linked :=
      if t.written = 2 then
        match t.op with
        | .link e _ => insert e g.linked
        | .unlink e => g.linked \ {e}
      else g.linked }

def Graph.run (g : Graph) (steps : List GraphStep) : Graph := steps.foldl Graph.step g

/-! ## The two directions -/

/-- The list of one end. -/
def Side.list : Side → UInt64 → Str → MemProg (List (UInt64 × Text × UInt32))
  | .edge => neighbors
  | .redge => incoming

/-- A list shows the linked edges, those under all relations with their names. -/
def Lists (d : Side) (g : Graph) : Prop :=
  (∀ id rel other, rel.bytes ≠ [] →
    (other ∈ (ask (d.list id rel) g.store).map Prod.fst ↔
      Edge.between d id rel other ∈ g.linked)) ∧
  ∀ id rel, rel.bytes = [] →
    ((ask (d.list id rel) g.store).map fun r => (r.1, r.2.1)).Nodup ∧
    ∀ other name,
      (other, name) ∈ (ask (d.list id rel) g.store).map (fun r => (r.1, r.2.1)) ↔
        ∃ rel' : Str, rel'.bytes = name ∧ Edge.between d id rel' other ∈ g.linked

/-- Two nodes are linked by the relation, or by any if it has no name. -/
def Graph.edge (g : Graph) (rel : Str) (a b : UInt64) : Prop :=
  ∃ e ∈ g.linked, e.src = a ∧ e.dst = b ∧ (rel.bytes = [] ∨ e.rel = rel)

/-- A traversal ends with each node within the depth once, by its distance. -/
def Traverses (g : Graph) : Prop :=
  ∀ start max_depth rel, ∃ enough, ∀ fuel, enough < fuel →
    ∃ order, ask (traverse start max_depth rel fuel) g.store = some order ∧
      BreadthFirst.Traversed (g.edge rel) max_depth start order

/-- Both directions show what is linked, and so does a traversal. -/
def Agree (g : Graph) : Prop := (∀ d, Lists d g) ∧ Traverses g

/-! ## Steps that fit -/

/-- The name is read for the same ends in a list of another. -/
def Edge.Reads (e : Edge) (rel : Str) : Prop := ∃ d, Begins rel e.rel (e.far d)

/-- A step fits when
* both writes are made, or none, or they make no difference to a named edge;
* a linked edge has a name, and for its ends no other name that its keys begin with, unless that
  is linked too;
* an unlinked edge leaves no edge between its ends with keys that begin with its name. -/
def GraphStep.Fits (linked : Set Edge) (t : GraphStep) : Prop :=
  match t.written, t.op with
  | 0, _ => True
  | 1, .link e _ => e.rel.bytes = [] ∨ e ∈ linked
  | 1, .unlink e => e.rel.bytes = [] ∨ e ∉ linked
  | _, .link e _ =>
      e.rel.bytes ≠ [] ∧
        ∀ rel, rel.bytes ≠ [] → rel ≠ e.rel → e.Reads rel → { e with rel := rel } ∈ linked
  | _, .unlink e =>
      e.rel.bytes = [] ∨
        ∀ rel, rel ≠ e.rel → { e with rel := rel } ∈ linked → ¬ { e with rel := rel }.Reads e.rel

/-- Every step fits what is linked before it. -/
def FitsAll (g : Graph) : List GraphStep → Prop
  | [] => True
  | t :: steps => t.Fits g.linked ∧ FitsAll (g.step t) steps

/-! ## What a step writes -/

/-- Was the key of one end written? -/
def GraphStep.wrote (t : GraphStep) : Side → Prop
  | .edge => 1 ≤ t.written
  | .redge => t.written = 2

/-- The writes of a step, one after the other. -/
theorem cut_ks (t : GraphStep) (s : State) :
    (cut t.op.prog t.oks s).ks =
      if t.written = 0 then s.ks
      else
        let half := s.ks.write { key := t.op.edge.key .edge, value := t.op.value, ts := s.clock + 1 }
        if t.written = 1 then half
        else half.write { key := t.op.edge.key .redge, value := t.op.value, ts := s.clock + 2 } := by
  obtain ⟨op, oks⟩ := t
  rcases oks with _ | ⟨_ | _, _ | ⟨_ | _, oks⟩⟩ <;> cases op <;> rfl

theorem written_cases (t : GraphStep) : t.written = 0 ∨ t.written = 1 ∨ t.written = 2 := by
  unfold GraphStep.written
  split
  · exact Or.inr (Or.inr rfl)
  · exact Or.inr (Or.inl rfl)
  · exact Or.inl rfl

/-- Other keys keep their values. -/
theorem value_cut_of_ne {t : GraphStep} {s : State} {k : Key}
    (h : ∀ d, t.wrote d → t.op.edge.key d ≠ k) :
    (cut t.op.prog t.oks s).ks.value k = s.ks.value k := by
  rw [cut_ks]
  rcases written_cases t with hn | hn | hn
  · rw [hn, if_pos rfl]
  · rw [hn, if_neg (by decide)]
    dsimp only
    rw [if_pos rfl, value_write, if_neg (h .edge hn.ge)]
  · rw [hn, if_neg (by decide)]
    dsimp only
    rw [if_neg (by decide), value_write, value_write, if_neg (h .redge hn),
      if_neg (h .edge (show 1 ≤ t.written by omega))]

theorem value_cut_key {t : GraphStep} {d : Side} (h : t.wrote d) (s : State) :
    (cut t.op.prog t.oks s).ks.value (t.op.edge.key d) = live t.op.value := by
  rw [cut_ks]
  rcases written_cases t with hn | hn | hn
  · cases d with
    | edge => exact absurd h (show ¬ 1 ≤ t.written by omega)
    | redge => exact absurd (hn.symm.trans h) (by decide)
  · rw [hn, if_neg (by decide)]
    dsimp only
    cases d with
    | edge => rw [if_pos rfl, value_write, if_pos rfl]
    | redge => exact absurd (hn.symm.trans h) (by decide)
  · rw [hn, if_neg (by decide)]
    dsimp only
    cases d with
    | edge =>
        rw [if_neg (by decide), value_write, value_write, if_pos rfl, if_neg]
        exact fun heq => nomatch (key_inj heq).1
    | redge => rw [if_neg (by decide), value_write, if_pos rfl]

theorem onlyEdges_cut {t : GraphStep} {s : State} (h : OnlyEdges s) :
    OnlyEdges (cut t.op.prog t.oks s) := by
  intro d k htag hsome
  by_cases hk : ∃ d', t.op.edge.key d' = k
  · obtain ⟨d', rfl⟩ := hk
    have hside := side_unique htag (tag_key t.op.edge d')
    subst hside
    exact ⟨t.op.edge, rfl⟩
  · rw [value_cut_of_ne fun d' _ heq => hk ⟨d', heq⟩] at hsome
    exact h d k htag hsome

/-! ## What is stored -/

/-- Both keys of a named edge are stored where it is linked, and no list mistakes one for
another. -/
structure Stored (g : Graph) : Prop where
  present : ∀ d e, e.rel.bytes ≠ [] →
    ((g.store.ks.value (e.key d)).isSome = true ↔ e ∈ g.linked)
  edges : OnlyEdges g.store
  named : ∀ e ∈ g.linked, e.rel.bytes ≠ []
  apart : ∀ e ∈ g.linked, ∀ rel : Str, rel.bytes ≠ [] → e.Reads rel →
    { e with rel := rel } ∈ g.linked

theorem Edge.between_rel (e : Edge) (d : Side) (rel : Str) :
    between d (e.near d) rel (e.far d) = { e with rel := rel } := by
  cases d <;> rfl

/-- A stored edge is in the lists of every name that its key begins with. -/
theorem listed_of_value {s : State} (hs : OnlyEdges s) {e : Edge} {d : Side} {rel : Str}
    (hvalue : (s.ks.value (e.key d)).isSome = true) (hnamed : e.rel.bytes ≠ [])
    (hrel : rel.bytes = [] ∨ Begins rel e.rel (e.far d)) :
    (e.far d, e.rel.bytes) ∈
      (ask (listing d d.rel_start (e.near d) rel) s).map fun r => (r.1, r.2.1) := by
  obtain ⟨v, hv⟩ := Option.isSome_iff_exists.mp hvalue
  exact List.mem_map.mpr
    ⟨_, (mem_listing hs d (e.near d) rel _).mpr ⟨e, v, hv, rfl, hnamed, hrel, rfl⟩, rfl⟩

/-- What is listed under all relations is stored. -/
theorem value_of_listed {s : State} (hs : OnlyEdges s) {d : Side} {id other : UInt64} {rel : Str}
    {name : Text} (h : (other, name) ∈ (ask (listing d d.rel_start id rel) s).map fun r => (r.1, r.2.1)) :
    ∃ e : Edge, (s.ks.value (e.key d)).isSome = true ∧ e.near d = id ∧ e.far d = other ∧
      e.rel.bytes = name ∧ name ≠ [] ∧ (rel.bytes = [] ∨ Begins rel e.rel (e.far d)) := by
  obtain ⟨r, hr, heq⟩ := List.mem_map.mp h
  obtain ⟨e, v, hvalue, hnear, hnamed, hrel, rfl⟩ := (mem_listing hs d id rel r).mp hr
  cases heq
  exact ⟨e, by rw [hvalue]; rfl, hnear, rfl, rfl, hnamed, hrel⟩

theorem mem_fst_iff {l : List (UInt64 × Text × UInt32)} {other : UInt64} :
    other ∈ l.map Prod.fst ↔ ∃ name, (other, name) ∈ l.map fun r => (r.1, r.2.1) := by
  simp

theorem Side.list_eq (d : Side) (id : UInt64) (rel : Str) :
    d.list id rel = listing d d.rel_start id rel := by
  have hstart : Side.edge.rel_start = 9 + 8 + 1 ∧ Side.redge.rel_start = 10 + 8 + 1 := by
    decide +kernel
  cases d with
  | edge => rw [hstart.1]; rfl
  | redge => rw [hstart.2]; rfl

/-- The nodes of a list are those linked by the relation, or by any if it has no name. -/
theorem Stored.mem_ids {g : Graph} (h : Stored g) (d : Side) (id : UInt64) (rel : Str) (other : UInt64) :
    other ∈ (ask (d.list id rel) g.store).map Prod.fst ↔
      ∃ e ∈ g.linked, e.near d = id ∧ e.far d = other ∧ (rel.bytes = [] ∨ e.rel = rel) := by
  rw [d.list_eq, mem_fst_iff]
  constructor
  · rintro ⟨name, hname⟩
    obtain ⟨e, hvalue, hnear, hfar, rfl, hnamed, hrel⟩ := value_of_listed h.edges hname
    have hlinked := (h.present d e hnamed).mp hvalue
    by_cases hany : rel.bytes = []
    · exact ⟨e, hlinked, hnear, hfar, Or.inl hany⟩
    · have hreads : e.Reads rel := ⟨d, hrel.resolve_left hany⟩
      have hother := h.apart e hlinked rel hany hreads
      rw [← Edge.between_rel e d] at hother
      exact ⟨_, hother, by simpa using hnear, by simpa using hfar, Or.inr (by simp)⟩
  · rintro ⟨e, hlinked, rfl, rfl, hrel⟩
    have hnamed := h.named e hlinked
    refine ⟨_, listed_of_value h.edges ((h.present d e hnamed).mpr hlinked) hnamed ?_⟩
    rcases hrel with hany | rfl
    · exact Or.inl hany
    · exact Or.inr (begins_self _ _)

theorem Stored.lists {g : Graph} (h : Stored g) (d : Side) : Lists d g := by
  constructor
  · intro id rel other hnamed
    rw [h.mem_ids]
    constructor
    · rintro ⟨e, hlinked, rfl, rfl, hrel⟩
      rwa [← hrel.resolve_left hnamed, Edge.between_self]
    · intro hlinked
      exact ⟨_, hlinked, by simp, by simp, Or.inr (by simp)⟩
  · intro id rel hany
    rw [d.list_eq]
    refine ⟨nodup_listing h.edges d id rel, ?_⟩
    intro other name
    constructor
    · intro hname
      obtain ⟨e, hvalue, rfl, rfl, rfl, hnamed, _⟩ := value_of_listed h.edges hname
      exact ⟨e.rel, rfl, by rw [Edge.between_self]; exact (h.present d e hnamed).mp hvalue⟩
    · rintro ⟨rel', rfl, hlinked⟩
      have hnamed := h.named _ hlinked
      have hlisted := listed_of_value h.edges ((h.present d _ hnamed).mpr hlinked) hnamed
        (Or.inl hany)
      simpa using hlisted

theorem Stored.traverses {g : Graph} (h : Stored g) : Traverses g := by
  intro start max_depth rel
  let nodes := start :: ((g.store.scanPrefix Side.edge.tag).filterMap
    (readEdge Side.edge.rel_start)).map Prod.fst
  refine ⟨nodes.length, fun fuel hfuel => ?_⟩
  rw [traverse_run]
  refine BreadthFirst.traverse_spec ?_ ?_ hfuel
  · intro x y
    exact h.mem_ids .edge x rel y
  · rintro x (rfl | ⟨y, e, hlinked, rfl, rfl, _⟩)
    · exact List.mem_cons_self
    · have hnamed := h.named e hlinked
      obtain ⟨v, hv⟩ := Option.isSome_iff_exists.mp ((h.present .edge e hnamed).mpr hlinked)
      refine List.mem_cons_of_mem _ (List.mem_map.mpr ⟨(e.dst, e.rel.bytes, weightOf v), ?_, rfl⟩)
      refine List.mem_filterMap.mpr ⟨(e.key .edge, v), ?_, ?_⟩
      · exact (mem_scanPrefix _ _ _).mpr ⟨tag_key e .edge, hv⟩
      · rw [readEdge_key, if_neg hnamed]
        rfl

/-- What the lists and a traversal show, from what is stored. -/
theorem agree_of_stored {g : Graph} (h : Stored g) : Agree g := ⟨h.lists, h.traverses⟩

/-! ## Runs -/

/-- A step leaves the other edges as they are. -/
theorem value_step_of_ne {g : Graph} {t : GraphStep} {e : Edge} (h : e ≠ t.op.edge) (d : Side) :
    (g.step t).store.ks.value (e.key d) = g.store.ks.value (e.key d) :=
  value_cut_of_ne fun _ _ heq => h (key_inj heq).2.symm

theorem linked_step_of_ne {g : Graph} {t : GraphStep} {e : Edge} (h : e ≠ t.op.edge) :
    e ∈ (g.step t).linked ↔ e ∈ g.linked := by
  rw [Graph.step]
  dsimp only
  split
  · cases hop : t.op with
    | link e' weight =>
        rw [hop] at h
        exact or_iff_right h
    | unlink e' =>
        rw [hop] at h
        exact and_iff_left h
  · exact Iff.rfl

theorem linked_step_of_half {g : Graph} {t : GraphStep} (h : t.written ≠ 2) :
    (g.step t).linked = g.linked := if_neg h

theorem linked_step_link {g : Graph} {t : GraphStep} {e : Edge} {weight : UInt32}
    (hop : t.op = .link e weight) (h : t.written = 2) : (g.step t).linked = insert e g.linked := by
  rw [Graph.step, hop, if_pos h]

theorem linked_step_unlink {g : Graph} {t : GraphStep} {e : Edge} (hop : t.op = .unlink e)
    (h : t.written = 2) : (g.step t).linked = g.linked \ {e} := by
  rw [Graph.step, hop, if_pos h]

theorem fits_none {linked : Set Edge} {t : GraphStep} (h : t.written = 0) : t.Fits linked := by
  simp only [GraphStep.Fits, h]

theorem fits_half_link {linked : Set Edge} {t : GraphStep} {e : Edge} {weight : UInt32}
    (hop : t.op = .link e weight) (h : t.written = 1) :
    t.Fits linked ↔ e.rel.bytes = [] ∨ e ∈ linked := by
  simp only [GraphStep.Fits, h, hop]

theorem fits_half_unlink {linked : Set Edge} {t : GraphStep} {e : Edge} (hop : t.op = .unlink e)
    (h : t.written = 1) : t.Fits linked ↔ e.rel.bytes = [] ∨ e ∉ linked := by
  simp only [GraphStep.Fits, h, hop]

theorem fits_link {linked : Set Edge} {t : GraphStep} {e : Edge} {weight : UInt32}
    (hop : t.op = .link e weight) (h : t.written = 2) :
    t.Fits linked ↔ e.rel.bytes ≠ [] ∧
      ∀ rel, rel.bytes ≠ [] → rel ≠ e.rel → e.Reads rel → { e with rel := rel } ∈ linked := by
  simp only [GraphStep.Fits, h, hop]

theorem fits_unlink {linked : Set Edge} {t : GraphStep} {e : Edge} (hop : t.op = .unlink e)
    (h : t.written = 2) :
    t.Fits linked ↔ e.rel.bytes = [] ∨
      ∀ rel, rel ≠ e.rel → { e with rel := rel } ∈ linked →
        ¬ Edge.Reads { e with rel := rel } e.rel := by
  simp only [GraphStep.Fits, h, hop]

/-- After a step the keys of its edge are there where it is linked. -/
theorem present_step {g : Graph} {t : GraphStep} (h : Stored g) (hfits : t.Fits g.linked) (d : Side)
    (hnamed : t.op.edge.rel.bytes ≠ []) :
    ((g.step t).store.ks.value (t.op.edge.key d)).isSome = true ↔
      t.op.edge ∈ (g.step t).linked := by
  have hbefore := h.present d t.op.edge hnamed
  have hkept (hwrote : ¬ t.wrote d) :
      (g.step t).store.ks.value (t.op.edge.key d) = g.store.ks.value (t.op.edge.key d) := by
    refine value_cut_of_ne fun d' hd' heq => ?_
    rw [(key_inj heq).1] at hd'
    exact hwrote hd'
  have hset (hwrote : t.wrote d) :
      (g.step t).store.ks.value (t.op.edge.key d) = live t.op.value := value_cut_key hwrote g.store
  rcases written_cases t with hn | hn | hn
  · rw [linked_step_of_half (by omega), hkept, hbefore]
    cases d with
    | edge => exact show ¬ 1 ≤ t.written by omega
    | redge => exact show ¬ t.written = 2 by omega
  · rw [linked_step_of_half (by omega)]
    cases d with
    | redge => rw [hkept (show ¬ t.written = 2 by omega), hbefore]
    | edge =>
        rw [hset (show 1 ≤ t.written by omega)]
        cases hop : t.op with
        | link e weight =>
            rw [hop] at hnamed
            exact iff_of_true rfl (((fits_half_link hop hn).mp hfits).resolve_left hnamed)
        | unlink e =>
            rw [hop] at hnamed
            exact iff_of_false nofun (((fits_half_unlink hop hn).mp hfits).resolve_left hnamed)
  · have hwrote : t.wrote d := by
      cases d with
      | edge => exact show 1 ≤ t.written by omega
      | redge => exact hn
    rw [hset hwrote]
    cases hop : t.op with
    | link e weight =>
        rw [linked_step_link hop hn]
        exact iff_of_true rfl (Set.mem_insert _ _)
    | unlink e =>
        rw [linked_step_unlink hop hn]
        exact iff_of_false nofun fun hmem => hmem.2 rfl

/-- A step that fits keeps names apart. -/
theorem apart_step {g : Graph} {t : GraphStep} (h : Stored g) (hfits : t.Fits g.linked) {e : Edge}
    (he : e ∈ (g.step t).linked) {rel : Str} (hrel : rel.bytes ≠ []) (hreads : e.Reads rel) :
    { e with rel := rel } ∈ (g.step t).linked := by
  by_cases hn : t.written = 2
  · cases hop : t.op with
    | link e' weight =>
        rw [linked_step_link hop hn] at he ⊢
        rcases he with rfl | he
        · by_cases heq : rel = e.rel
          · subst heq
            exact Set.mem_insert _ _
          · exact Set.mem_insert_of_mem _ (((fits_link hop hn).mp hfits).2 rel hrel heq hreads)
        · exact Set.mem_insert_of_mem _ (h.apart e he rel hrel hreads)
    | unlink e' =>
        rw [linked_step_unlink hop hn] at he ⊢
        refine ⟨h.apart e he.1 rel hrel hreads, ?_⟩
        rintro rfl
        rcases (fits_unlink hop hn).mp hfits with hempty | hfree
        · exact hrel hempty
        · refine hfree e.rel ?_ he.1 hreads
          intro (hsame : e.rel = rel)
          subst hsame
          exact he.2 rfl
  · rw [linked_step_of_half hn] at he ⊢
    exact h.apart e he rel hrel hreads

/-- A step that fits keeps both keys of every edge. -/
theorem Stored.step {g : Graph} {t : GraphStep} (h : Stored g) (hfits : t.Fits g.linked) :
    Stored (g.step t) where
  present := by
    intro d e hnamed
    by_cases he : e = t.op.edge
    · subst he
      exact present_step h hfits d hnamed
    · rw [value_step_of_ne he, linked_step_of_ne he]
      exact h.present d e hnamed
  edges := onlyEdges_cut h.edges
  named := by
    intro e hlinked
    by_cases he : e = t.op.edge
    · by_cases hn : t.written = 2
      · cases hop : t.op with
        | link e' weight =>
            rw [hop] at he
            subst he
            exact ((fits_link hop hn).mp hfits).1
        | unlink e' =>
            rw [linked_step_unlink hop hn] at hlinked
            exact h.named e hlinked.1
      · rw [linked_step_of_half hn] at hlinked
        exact h.named e hlinked
    · exact h.named e ((linked_step_of_ne he).mp hlinked)
  apart := fun _ he _ hrel hreads => apart_step h hfits he hrel hreads

theorem value_step_link {g : Graph} {t : GraphStep} {e : Edge} {weight : UInt32} {d : Side}
    (hop : t.op = .link e weight) (hwrote : t.wrote d) :
    ((g.step t).store.ks.value (e.key d)).isSome = true := by
  obtain ⟨op, oks⟩ := t
  subst hop
  exact congrArg Option.isSome (value_cut_key hwrote g.store)

theorem value_step_unlink {g : Graph} {t : GraphStep} {e : Edge} {d : Side}
    (hop : t.op = .unlink e) (hwrote : t.wrote d) :
    (g.step t).store.ks.value (e.key d) = none := by
  obtain ⟨op, oks⟩ := t
  subst hop
  exact value_cut_key hwrote g.store

/-- Where the two directions agree after a step, the step fits. -/
theorem fits_of_agree {g : Graph} {t : GraphStep} (h : Stored g) (hagree : Agree (g.step t)) :
    t.Fits g.linked := by
  have hedges : OnlyEdges (g.step t).store := onlyEdges_cut h.edges
  have hshown {e : Edge} {d : Side} {rel : Str} (hrel : rel.bytes ≠ [])
      (hvalue : ((g.step t).store.ks.value (e.key d)).isSome = true) (hnamed : e.rel.bytes ≠ [])
      (hbegins : Begins rel e.rel (e.far d)) : { e with rel := rel } ∈ (g.step t).linked := by
    rw [← Edge.between_rel e d]
    refine ((hagree.1 d).1 _ _ _ hrel).mp ?_
    rw [d.list_eq]
    exact mem_fst_iff.mpr ⟨_, listed_of_value hedges hvalue hnamed (Or.inr hbegins)⟩
  -- without a relation every linked edge is listed, so its key is there and it has a name
  have hall {e : Edge} (d : Side) (he : e ∈ (g.step t).linked) :
      ((g.step t).store.ks.value (e.key d)).isSome = true ∧ e.rel.bytes ≠ [] := by
    have hlisted := (((hagree.1 d).2 (e.near d) ⟨[], by decide +kernel⟩ rfl).2 (e.far d) e.rel.bytes).mpr
      ⟨e.rel, rfl, by rwa [Edge.between_self]⟩
    rw [d.list_eq] at hlisted
    obtain ⟨e', hvalue, hnear, hfar, hname, hnamed, _⟩ := value_of_listed hedges hlisted
    have heq : e' = e := by
      rw [← Edge.between_self e' d, ← Edge.between_self e d, hnear, hfar, Str.eq_of_bytes hname]
    subst heq
    exact ⟨hvalue, hnamed⟩
  rcases written_cases t with hn | hn | hn
  · exact fits_none hn
  · have hedge : t.wrote .edge := show 1 ≤ t.written by omega
    have hlinked : (g.step t).linked = g.linked := linked_step_of_half (by omega)
    cases hop : t.op with
    | link e weight =>
        rw [fits_half_link hop hn]
        by_cases hnamed : e.rel.bytes = []
        · exact Or.inl hnamed
        · have he := hshown (e := e) (d := .edge) hnamed (value_step_link hop hedge) hnamed
            (begins_self _ _)
          exact Or.inr (hlinked ▸ he)
    | unlink e =>
        rw [fits_half_unlink hop hn]
        refine Or.inr fun he => ?_
        have hvalue := (hall .edge (hlinked.symm ▸ he)).1
        rw [value_step_unlink hop hedge] at hvalue
        cases hvalue
  · have hwrote (d : Side) : t.wrote d := by
      cases d with
      | edge => exact show 1 ≤ t.written by omega
      | redge => exact hn
    cases hop : t.op with
    | link e weight =>
        have hlinked := linked_step_link (g := g) hop hn
        have hnamed := (hall (e := e) .edge (by rw [hlinked]; exact Set.mem_insert _ _)).2
        refine (fits_link hop hn).mpr ⟨hnamed, fun rel hrel hne hreads => ?_⟩
        obtain ⟨d, hbegins⟩ := hreads
        have he := hshown hrel (value_step_link hop (hwrote d)) hnamed hbegins
        rw [hlinked] at he
        exact he.resolve_left fun heq => hne (congrArg Edge.rel heq)
    | unlink e =>
        have hlinked := linked_step_unlink (g := g) hop hn
        rw [fits_unlink hop hn]
        by_cases hnamed : e.rel.bytes = []
        · exact Or.inl hnamed
        · refine Or.inr fun rel hne he hreads => ?_
          obtain ⟨d, hbegins⟩ := hreads
          have hother : { e with rel := rel } ∈ (g.step t).linked := by
            rw [hlinked]
            exact ⟨he, fun heq => hne (congrArg Edge.rel heq)⟩
          have hself := hshown hnamed (hall d hother).1 (hall d hother).2 hbegins
          rw [hlinked] at hself
          exact hself.2 rfl

/-- A store without any key of an edge, where nothing is linked. -/
def Graph.fresh (s : State) : Graph := { store := s, linked := ∅ }

theorem stored_fresh {s : State} (h : ∀ d : Side, ∀ k, d.tag <+: k → s.ks.value k = none) :
    Stored (Graph.fresh s) where
  present := by
    intro d e _
    rw [show (Graph.fresh s).store.ks.value (e.key d) = none from h d _ (tag_key e d)]
    exact iff_of_false nofun nofun
  edges := by
    intro d k htag hsome
    rw [show (Graph.fresh s).store.ks.value k = none from h d k htag] at hsome
    cases hsome
  named := nofun
  apart := nofun

theorem agreeing_of_stored {g : Graph} (h : Stored g) (steps : List GraphStep) :
    (∀ done, done <+: steps → Agree (g.run done)) ↔ FitsAll g steps := by
  induction steps generalizing g with
  | nil =>
      refine iff_of_true ?_ trivial
      intro done hdone
      rw [List.prefix_nil.mp hdone]
      exact agree_of_stored h
  | cons t steps ih =>
      constructor
      · intro hall
        have hfits := fits_of_agree h (hall [t] (by simp))
        refine ⟨hfits, (ih (h.step hfits)).mp fun done hdone => ?_⟩
        exact hall (t :: done) ((List.prefix_cons_inj t).mpr hdone)
      · rintro ⟨hfits, hrest⟩ done hdone
        cases done with
        | nil => exact agree_of_stored h
        | cons t' done =>
            obtain ⟨rfl, htail⟩ := List.cons_prefix_cons.mp hdone
            exact (ih (h.step hfits)).mpr hrest done htail

/-- The two directions agree in every state of a run if and only if each of its steps fits what
was linked before it. -/
theorem agreeing_iff (s : State) (h : ∀ d : Side, ∀ k, d.tag <+: k → s.ks.value k = none)
    (steps : List GraphStep) :
    (∀ done, done <+: steps → Agree ((Graph.fresh s).run done)) ↔
      FitsAll (Graph.fresh s) steps :=
  agreeing_of_stored (stored_fresh h) steps

/-! ## A name with a separator -/

def likes : Str := ⟨utf8 "likes", Text.lossy_of_ascii (by decide +kernel)⟩
def likesMusic : Str := ⟨utf8 "likes:music", Text.lossy_of_ascii (by decide +kernel)⟩

def emptyState : State := { ks := ∅, clock := 0, ep_seq := 0 }

def linkMusic : GraphStep :=
  { op := .link { src := 1, rel := likesMusic, dst := 2 } 0x3F800000, oks := [true, true] }

/-- The link is listed under a name that it was not made with. -/
theorem listed_under_other_name : ¬ Agree ((Graph.fresh emptyState).run [linkMusic]) := by
  intro h
  have hlisted : (2 : UInt64) ∈
      (ask (neighbors 1 likes) ((Graph.fresh emptyState).run [linkMusic]).store).map Prod.fst := by
    decide +kernel
  rcases ((h.1 .edge).1 1 likes 2 (by decide +kernel)).mp hlisted with heq | hnone
  · have hrel : likes = likesMusic := congrArg Edge.rel heq
    revert hrel
    decide +kernel
  · exact hnone

/-- With another name the link is kept in both directions. -/
theorem agreeing_iff_likes :
    (∀ done, done <+: [{ linkMusic with op := .link { src := 1, rel := likes, dst := 2 } 0 }] →
      Agree ((Graph.fresh emptyState).run done)) ↔
    FitsAll (Graph.fresh emptyState)
      [{ linkMusic with op := .link { src := 1, rel := likes, dst := 2 } 0 }] :=
  agreeing_iff emptyState (fun _ _ _ => rfl) _

end Memory
end StrikeDB
