import StrikeDB.BreadthFirst
import StrikeDB.MemoryRuns

/-!
# StrikeDB: the graph of memories

An edge is stored under two keys, one for each end, with the name of its relation between
separators.  Both lists of a node scan behind its keys, and a traversal asks for the outgoing
list of one node after the other.

Weights are the bits of their floats.

**Results.**
* `mem_listing`: what a list shows, for every set of edges in the store.
* `traverse_run`: a traversal of the store is one of the listed edges.
-/

namespace StrikeDB
namespace Memory

/-! ## Keys -/

/-- The two ends that an edge is stored under. -/
inductive Side where
  | edge
  | redge
deriving DecidableEq

def Side.tag : Side → Bytes
  | edge => utf8 "mem:edge:"
  | redge => utf8 "mem:redge:"

/-- What the keys of one end begin with. -/
def nodePrefix (d : Side) (id : UInt64) : Bytes := d.tag ++ (beBytes 8 id.toNat ++ [COLON])

/-- The rest of a key: the relation and the other end. -/
def relKey (rel : Str) (other : UInt64) : Bytes := rel.bytes ++ [COLON] ++ beBytes 8 other.toNat

def edge_key (src : UInt64) (rel : Str) (dst : UInt64) : Key :=
  nodePrefix .edge src ++ relKey rel dst

def redge_key (dst : UInt64) (rel : Str) (src : UInt64) : Key :=
  nodePrefix .redge dst ++ relKey rel src

/-! ## Edges -/

def weightBytes (weight : UInt32) : Bytes := leBytes 4 weight.toNat

def link (src dst : UInt64) (rel : Str) (weight : UInt32) : MemProg Bool := do
  let w := weightBytes weight
  if ← put (edge_key src rel dst) (.bytes w) then put (redge_key dst rel src) (.bytes w)
  else return false

def unlink (src dst : UInt64) (rel : Str) : MemProg Bool := do
  if ← delete (edge_key src rel dst) then delete (redge_key dst rel src)
  else return false

/-- 1.0 where there are not four bytes. -/
def weightOf : Value → UInt32
  | .bytes b => if b.length = 4 then UInt32.ofNat (leNat b) else 0x3F800000
  | _ => 0x3F800000

/-- An edge from its key: the last eight bytes, and what lies between the separators. -/
def readEdge (rel_start : Nat) : Key × Value → Option (UInt64 × Text × UInt32)
  | (k, v) =>
      if k.length < 8 then none
      else
        let other := UInt64.ofNat (beNat (k.drop (k.length - 8)))
        let rel_end := k.length - 1 - 8
        if rel_end ≤ rel_start then none
        else some (other, Text.from_utf8_lossy ((k.take rel_end).drop rel_start), weightOf v)

/-- The relation and its separator, nothing for all relations. -/
def relPrefix (rel : Str) : Bytes := if rel.bytes = [] then [] else rel.bytes ++ [COLON]

/-- The edges that are stored under one end. -/
def listing (d : Side) (rel_start : Nat) (id : UInt64) (rel : Str) :
    MemProg (List (UInt64 × Text × UInt32)) := do
  let kvs ← scanPrefix (nodePrefix d id ++ relPrefix rel)
  return kvs.filterMap (readEdge rel_start)

def neighbors (src : UInt64) (rel : Str) : MemProg (List (UInt64 × Text × UInt32)) :=
  listing .edge (9 + 8 + 1) src rel

def incoming (dst : UInt64) (rel : Str) : MemProg (List (UInt64 × Text × UInt32)) :=
  listing .redge (10 + 8 + 1) dst rel

/-- The loop of `traverse`; nothing is returned where the fuel does not suffice. -/
def traverseLoop (max_depth : Nat) (rel : Str) :
    Nat → BreadthFirst.Search UInt64 → MemProg (Option (List UInt64))
  | 0, _ => return none
  | fuel + 1, s =>
      match s.q with
      | [] => return some s.order
      | (cur, depth) :: q =>
          if depth ≥ max_depth then traverseLoop max_depth rel fuel { s with q := q }
          else do
            let ns ← neighbors cur rel
            traverseLoop max_depth rel fuel
              (BreadthFirst.expand depth (ns.map Prod.fst) { s with q := q })

def traverse (start : UInt64) (max_depth : Nat) (rel : Str) (fuel : Nat) :
    MemProg (Option (List UInt64)) :=
  traverseLoop max_depth rel fuel { seen := [start], order := [start], q := [(start, 0)] }

/-! ## What is stored -/

structure Edge where
  src : UInt64
  rel : Str
  dst : UInt64
deriving DecidableEq

namespace Edge

/-- The end that the key begins with. -/
def near (e : Edge) : Side → UInt64
  | .edge => e.src
  | .redge => e.dst

/-- The end behind the relation. -/
def far (e : Edge) : Side → UInt64
  | .edge => e.dst
  | .redge => e.src

/-- The edge between two ends. -/
def between (d : Side) (id : UInt64) (rel : Str) (other : UInt64) : Edge :=
  match d with
  | .edge => { src := id, rel := rel, dst := other }
  | .redge => { src := other, rel := rel, dst := id }

def key (e : Edge) (d : Side) : Key := nodePrefix d (e.near d) ++ relKey e.rel (e.far d)

@[simp] theorem near_between (d : Side) (id : UInt64) (rel : Str) (other : UInt64) :
    (between d id rel other).near d = id := by
  cases d <;> rfl

@[simp] theorem far_between (d : Side) (id : UInt64) (rel : Str) (other : UInt64) :
    (between d id rel other).far d = other := by
  cases d <;> rfl

@[simp] theorem rel_between (d : Side) (id : UInt64) (rel : Str) (other : UInt64) :
    (between d id rel other).rel = rel := by
  cases d <;> rfl

@[simp] theorem between_self (e : Edge) (d : Side) : between d (e.near d) e.rel (e.far d) = e := by
  cases d <;> rfl

end Edge

theorem Str.eq_of_bytes {r r' : Str} (h : r.bytes = r'.bytes) : r = r' := by
  cases r
  cases r'
  simpa using h

theorem beBytes_inj {a b : UInt64} (h : beBytes 8 a.toNat = beBytes 8 b.toNat) : a = b := by
  have hnat := congrArg beNat h
  rw [beNat_beBytes (by simpa using a.toNat_lt), beNat_beBytes (by simpa using b.toNat_lt)] at hnat
  exact UInt64.toNat_inj.mp hnat

theorem relKey_inj {r r' : Str} {a b : UInt64} (h : relKey r a = relKey r' b) : r = r' ∧ a = b := by
  obtain ⟨hrel, hother⟩ := List.append_inj' h (by simp)
  exact ⟨Str.eq_of_bytes (List.append_cancel_right hrel), beBytes_inj hother⟩

theorem nodePrefix_length (d : Side) (id : UInt64) :
    (nodePrefix d id).length = d.tag.length + 8 + 1 := by
  simp [nodePrefix, Nat.add_assoc]

/-- The keys of the two ends begin differently. -/
theorem side_unique {d d' : Side} {k : Key} (h : d.tag <+: k) (h' : d'.tag <+: k) : d = d' := by
  have hpre := List.prefix_or_prefix_of_prefix h h'
  revert hpre
  cases d <;> cases d' <;> decide +kernel

theorem tag_key (e : Edge) (d : Side) : d.tag <+: e.key d := by
  rw [Edge.key, nodePrefix, List.append_assoc]
  exact List.prefix_append _ _

theorem nodePrefix_inj {d : Side} {a b : UInt64} {k : Key} (h : nodePrefix d a <+: k)
    (h' : nodePrefix d b <+: k) : a = b := by
  have hlen : (nodePrefix d a).length = (nodePrefix d b).length := by
    rw [nodePrefix_length, nodePrefix_length]
  have heq := (List.prefix_of_prefix_length_le h h' hlen.le).eq_of_length hlen
  exact beBytes_inj (List.append_cancel_right (List.append_cancel_left heq))

/-- An edge is stored under no key but its own. -/
theorem key_inj {e e' : Edge} {d d' : Side} (h : e.key d = e'.key d') : d = d' ∧ e = e' := by
  have hside : d = d' := side_unique (tag_key e d) (h ▸ tag_key e' d')
  subst hside
  have hnear : e.near d = e'.near d := by
    refine nodePrefix_inj (k := e.key d) (List.prefix_append _ _) ?_
    rw [h]
    exact List.prefix_append _ _
  rw [Edge.key, Edge.key, hnear] at h
  obtain ⟨hrel, hfar⟩ := relKey_inj (List.append_cancel_left h)
  refine ⟨rfl, ?_⟩
  rw [← Edge.between_self e d, ← Edge.between_self e' d, hnear, hrel, hfar]

/-- The name with its separator begins what stands behind the separator of an edge. -/
def Begins (rel rel' : Str) (other : UInt64) : Prop :=
  rel.bytes ++ [COLON] <+: relKey rel' other

theorem begins_self (rel : Str) (other : UInt64) : Begins rel rel other := List.prefix_append _ _

/-- Where the relation stands in a key. -/
def Side.rel_start (d : Side) : Nat := d.tag.length + 8 + 1

/-- An edge is read back from its key, unless its relation has no name. -/
theorem readEdge_key (e : Edge) (d : Side) (v : Value) :
    readEdge d.rel_start (e.key d, v) =
      if e.rel.bytes = [] then none else some (e.far d, e.rel.bytes, weightOf v) := by
  have hlen : (e.key d).length = d.rel_start + e.rel.bytes.length + 9 := by
    rw [Edge.key, List.length_append, nodePrefix_length, relKey, Side.rel_start]
    simp
    omega
  have hdrop : (e.key d).drop ((e.key d).length - 8) = beBytes 8 (e.far d).toNat := by
    have hsplit : e.key d =
        (nodePrefix d (e.near d) ++ (e.rel.bytes ++ [COLON])) ++ beBytes 8 (e.far d).toNat := by
      rw [Edge.key, relKey]
      simp
    rw [hsplit, List.length_append, beBytes_length, Nat.add_sub_cancel]
    exact List.drop_left
  have hrel : ((e.key d).take ((e.key d).length - 1 - 8)).drop d.rel_start = e.rel.bytes := by
    have hsplit : e.key d =
        (nodePrefix d (e.near d) ++ e.rel.bytes) ++ ([COLON] ++ beBytes 8 (e.far d).toNat) := by
      rw [Edge.key, relKey]
      simp
    have htake : (e.key d).length - 1 - 8 = (nodePrefix d (e.near d) ++ e.rel.bytes).length := by
      rw [hlen, List.length_append, nodePrefix_length, Side.rel_start]
      omega
    rw [htake, hsplit, List.take_left, Side.rel_start, ← nodePrefix_length d (e.near d)]
    exact List.drop_left
  have hnamed : (e.key d).length - 1 - 8 ≤ d.rel_start ↔ e.rel.bytes = [] := by
    rw [hlen, ← List.length_eq_zero_iff]
    omega
  rw [readEdge, if_neg (by omega)]
  dsimp only
  rw [hdrop, beNat_beBytes (by simpa using (e.far d).toNat_lt), UInt64.ofNat_toNat, hrel,
    e.rel.valid]
  simp only [hnamed]

/-! ## What the lists show -/

theorem ask_listing (d : Side) (n : Nat) (id : UInt64) (rel : Str) (s : State) :
    ask (listing d n id rel) s =
      (s.scanPrefix (nodePrefix d id ++ relPrefix rel)).filterMap (readEdge n) := rfl

/-- The keys of both ends are those of edges. -/
def OnlyEdges (s : State) : Prop :=
  ∀ d : Side, ∀ k, d.tag <+: k → (s.ks.value k).isSome = true → ∃ e : Edge, k = e.key d

theorem relPrefix_iff (rel rel' : Str) (other : UInt64) :
    relPrefix rel <+: relKey rel' other ↔ rel.bytes = [] ∨ Begins rel rel' other := by
  unfold relPrefix Begins
  split
  · next h => simp [h]
  · next h => simp [h]

/-- A key of a node and a relation. -/
theorem listed_iff (e : Edge) (d : Side) (id : UInt64) (rel : Str) :
    nodePrefix d id ++ relPrefix rel <+: e.key d ↔
      e.near d = id ∧ (rel.bytes = [] ∨ Begins rel e.rel (e.far d)) := by
  rw [← relPrefix_iff]
  constructor
  · intro h
    have hnear : e.near d = id :=
      nodePrefix_inj (k := e.key d) (List.prefix_append _ _) ((List.prefix_append _ _).trans h)
    refine ⟨hnear, ?_⟩
    rwa [Edge.key, hnear, List.prefix_append_right_inj] at h
  · rintro ⟨rfl, h⟩
    rwa [Edge.key, List.prefix_append_right_inj]

/-- What is listed for one end is stored under the key of an edge. -/
theorem key_of_listed {s : State} (h : OnlyEdges s) {d : Side} {id : UInt64} {rel : Str} {kv : Key × Value}
    (hkv : kv ∈ s.scanPrefix (nodePrefix d id ++ relPrefix rel)) :
    ∃ e : Edge, kv.1 = e.key d ∧ e.near d = id := by
  obtain ⟨hpre, hvalue⟩ := (mem_scanPrefix s _ _).mp hkv
  have htag : d.tag <+: kv.1 := by
    rw [nodePrefix, List.append_assoc] at hpre
    exact (List.prefix_append _ _).trans hpre
  obtain ⟨e, hkey⟩ := h d kv.1 htag (by rw [hvalue]; rfl)
  rw [hkey] at hpre
  exact ⟨e, hkey, ((listed_iff e d id rel).mp hpre).1⟩

/-- A list shows the named edges of the node whose relation and other end begin with the name
that was asked for. -/
theorem mem_listing {s : State} (h : OnlyEdges s) (d : Side) (id : UInt64) (rel : Str)
    (r : UInt64 × Text × UInt32) :
    r ∈ ask (listing d d.rel_start id rel) s ↔
      ∃ e : Edge, ∃ v, s.ks.value (e.key d) = some v ∧ e.near d = id ∧ e.rel.bytes ≠ [] ∧
        (rel.bytes = [] ∨ Begins rel e.rel (e.far d)) ∧ r = (e.far d, e.rel.bytes, weightOf v) := by
  rw [ask_listing, List.mem_filterMap]
  constructor
  · rintro ⟨⟨k, v⟩, hmem, hread⟩
    obtain ⟨e, rfl, -⟩ := key_of_listed h hmem
    obtain ⟨hpre, hvalue⟩ := (mem_scanPrefix s _ _).mp hmem
    obtain ⟨hnear, hrel⟩ := (listed_iff e d id rel).mp hpre
    rw [readEdge_key] at hread
    split at hread
    · cases hread
    · next hnamed => exact ⟨e, v, hvalue, hnear, hnamed, hrel, (Option.some.inj hread).symm⟩
  · rintro ⟨e, v, hvalue, hnear, hnamed, hrel, rfl⟩
    refine ⟨(e.key d, v), (mem_scanPrefix s _ _).mpr ⟨?_, hvalue⟩, ?_⟩
    · exact (listed_iff e d id rel).mpr ⟨hnear, hrel⟩
    · rw [readEdge_key, if_neg hnamed]

/-- A list shows an edge once. -/
theorem nodup_listing {s : State} (h : OnlyEdges s) (d : Side) (id : UInt64) (rel : Str) :
    ((ask (listing d d.rel_start id rel) s).map fun r => (r.1, r.2.1)).Nodup := by
  rw [ask_listing, List.map_filterMap]
  refine List.pairwise_filterMap.mpr ((keySorted_scanPrefix s _).imp_of_mem ?_)
  rintro ⟨k, v⟩ ⟨k', v'⟩ hkv hkv' hlt r hr r' hr' rfl
  obtain ⟨e, rfl, hnear⟩ := key_of_listed h hkv
  obtain ⟨e', rfl, hnear'⟩ := key_of_listed h hkv'
  rw [readEdge_key] at hr hr'
  split at hr
  · cases hr
  · split at hr'
    · cases hr'
    · simp only [Option.map_some, Option.some.injEq] at hr hr'
      have hends := Prod.mk.inj (hr.trans hr'.symm)
      have hedge : e = e' := by
        rw [← Edge.between_self e d, ← Edge.between_self e' d, hnear, hnear', hends.1,
          Str.eq_of_bytes hends.2]
      subst hedge
      exact KeyLt.irrefl _ hlt

/-- A traversal of the store is one of the lists of its nodes. -/
theorem traverse_run (s : State) (start : UInt64) (max_depth : Nat) (rel : Str) (fuel : Nat) :
    ask (traverse start max_depth rel fuel) s =
      BreadthFirst.traverse (fun n => (ask (neighbors n rel) s).map Prod.fst) max_depth fuel
        start := by
  have hloop : ∀ t : BreadthFirst.Search UInt64,
      ask (traverseLoop max_depth rel fuel t) s =
        BreadthFirst.loop (fun n => (ask (neighbors n rel) s).map Prod.fst) max_depth fuel t := by
    induction fuel with
    | zero => exact fun _ => rfl
    | succ fuel ih =>
        intro t
        rw [traverseLoop, BreadthFirst.loop]
        cases hq : t.q with
        | nil => rfl
        | cons c q =>
            obtain ⟨cur, depth⟩ := c
            dsimp only
            split
            · exact ih _
            · exact ih _
  exact hloop _

end Memory
end StrikeDB
