import StrikeDB.FairSearch
import StrikeDB.VectorBuilt

/-!
# StrikeDB: vector searches on built graphs

**Results.**
* `search_exact`: on every graph that inserts, merges, bulk loads and deletions lead to,
  both searches are right exactly when the graph is fair to the query.
* `batch_again`: a batch that names an id of the graph leaves two live nodes with that id,
  and a search returns it twice.
-/

namespace StrikeDB
namespace Vectors
namespace Hnsw

/-- **When vector searches are right.** In a graph that has been built, the plain search is
right on every run when, and only when, the graph is fair to the query, and so is the
search with any filter. -/
theorem search_exact
    {V F : Type} [Inhabited V] [LinearOrder F] {B : Build V F} {g : Hnsw V}
    (h : Reachable B g) (q : Query F) :
    ((∀ (heap : HeapOrder F) (s : VisitScratch) (k ef : Nat),
        g.Right q .Any k ef (g.search_ef q heap k ef s).1) ↔ g.Fair q .Any) ∧
      ∀ filter : Filter,
        (∀ (heap : HeapOrder F) (s : VisitScratch) (k ef : Nat),
          g.Right q filter k ef (g.search_filtered_attr q heap k ef filter s).1) ↔
          g.Fair q filter := by
  have hiff : ∀ filter : Filter,
      (∀ (heap : HeapOrder F) (s : VisitScratch) (k ef : Nat),
        g.Right q filter k ef (g.search_filtered_attr q heap k ef filter s).1) ↔
        g.Fair q filter := fun filter =>
    ⟨Fair.of_right h.linked, fun hf heap s k ef => hf.right h.linked heap s k ef⟩
  -- the plain search is the search without a filter
  exact ⟨hiff .Any, hiff⟩

/-- Vectors of length one that are all at distance zero. -/
def alike : Build Unit Nat :=
  ⟨fun _ => 1, fun _ _ => 0, fun _ _ => 0, 1⟩

/-- A query at distance zero from every node. -/
def atHand : Query Nat :=
  ⟨fun _ => 0, none, fun _ => 0, fun _ => 0⟩

/-- `VADD 1 v` and then `VADDBATCH 1 1 v`. -/
def addedTwice : Hnsw Unit :=
  ((new.insert alike (HeapOrder.popped Nat) ⟨1, (), 0, 0⟩ VisitScratch.new).1.insert_many_parallel
    alike (HeapOrder.popped Nat) [⟨1, (), 0, 0⟩] 1 1 VisitScratch.new).1

theorem addedTwice_reachable :
    Reachable alike addedTwice :=
  (Reachable.new.insert (HeapOrder.popped Nat) ⟨1, (), 0, 0⟩
    VisitScratch.new).insert_many_parallel (HeapOrder.popped Nat) [⟨1, (), 0, 0⟩] 1 1
      VisitScratch.new

theorem search_exact_addedTwice :
    ((∀ (heap : HeapOrder Nat) (s : VisitScratch) (k ef : Nat),
        addedTwice.Right atHand .Any k ef (addedTwice.search_ef atHand heap k ef s).1) ↔
        addedTwice.Fair atHand .Any) ∧
      ∀ filter : Filter,
        (∀ (heap : HeapOrder Nat) (s : VisitScratch) (k ef : Nat),
          addedTwice.Right atHand filter k ef
            (addedTwice.search_filtered_attr atHand heap k ef filter s).1) ↔
          addedTwice.Fair atHand filter :=
  search_exact addedTwice_reachable atHand

/-- A batch does not look whether the graph has an id. -/
theorem batch_again :
    Reachable alike addedTwice ∧
      ¬addedTwice.Right atHand .Any 2 2
        (addedTwice.search_ef atHand (HeapOrder.popped Nat) 2 2 VisitScratch.new).1 := by
  refine ⟨addedTwice_reachable, fun h => ?_⟩
  have hids : ((addedTwice.search_ef atHand (HeapOrder.popped Nat) 2 2
      VisitScratch.new).1.map Hit.id) = [1, 1] := by
    decide +kernel
  have hdistinct := h.distinct
  rw [hids] at hdistinct
  exact absurd hdistinct (by decide)

end Hnsw
end Vectors
end StrikeDB
