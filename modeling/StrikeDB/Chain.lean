import StrikeDB.Mutation
import Mathlib.Data.List.TakeWhile

/-!
# StrikeDB: version chains

The history of one key: versions sorted by commit timestamp, bounded by
`MAX_VERSIONS_PER_KEY` except for versions that an open snapshot still reads.

* `Chain.push_visible_of_active`: a push never changes what an open snapshot
  older than the pushed version sees, whatever it prunes.
* `Chain.push_newest`: the newest version of the chain is the newest pushed.
* `Chain.mem_push`: a push adds its own version and no other.
-/

namespace StrikeDB

/-- A committed version; a tombstone value means deleted at `ts`. -/
structure Version where
  ts : Nat
  value : Value
deriving DecidableEq

def MAX_VERSIONS_PER_KEY : Nat := 8

/-- The version history of one key. -/
structure Chain where
  latest_ts : Nat
  versions : List Version
  /-- ts of the newest version ever pruned (0 = none). -/
  pruned_ts : Nat
  /-- ts of the first version this process knows (0 = unknown). -/
  first_ts : Nat
deriving DecidableEq

/-- The value of a read: a tombstone reads as absent. -/
def live (v : Value) : Option Value := if v.isLive then some v else none

/-- Version `i` serves snapshots in `[ts_i, ts_{i+1})`; `active` is sorted. -/
def needed (active : List Nat) (lo hi : Nat) : Bool :=
  match active.dropWhile (fun s => s < lo) with
  | [] => false
  | s :: _ => s < hi

/-- Does version `v`, with `rest` the newer ones, survive pruning? -/
def keepVersion (active : List Nat) (v : Version) (rest : List Version) : Bool :=
  decide (rest.length < MAX_VERSIONS_PER_KEY) ||
    match rest with
    | [] => false
    | next :: _ => needed active v.ts next.ts

/-- The pruning loop: keeps the newest `MAX_VERSIONS_PER_KEY` versions and those
that an open snapshot reads, and reports the newest timestamp it dropped. -/
def pruneLoop (active : List Nat) : List Version → List Version × Nat
  | [] => ([], 0)
  | v :: rest =>
      if keepVersion active v rest then
        (v :: (pruneLoop active rest).1, (pruneLoop active rest).2)
      else ((pruneLoop active rest).1, max v.ts (pruneLoop active rest).2)

/-- Insert behind the last version that is not newer. -/
def insertVersion (v : Version) (vs : List Version) : List Version :=
  vs.takeWhile (fun w => w.ts ≤ v.ts) ++ v :: vs.dropWhile (fun w => w.ts ≤ v.ts)

namespace Chain

/-- The empty chain that `entry(key).or_default()` creates. -/
def default : Chain := { latest_ts := 0, versions := [], pruned_ts := 0, first_ts := 0 }

/-- Current value (`none` if the newest version is a tombstone). -/
def latest (c : Chain) : Option Value := c.versions.getLast?.bind fun v => live v.value

/-- Insert a committed version and prune past `MAX_VERSIONS_PER_KEY`. -/
def push (c : Chain) (ts : Nat) (value : Value) (active : List Nat) : Chain :=
  let versions := insertVersion ⟨ts, value⟩ c.versions
  let pruned := pruneLoop active versions
  { latest_ts := max c.latest_ts ts
    versions := if versions.length > MAX_VERSIONS_PER_KEY then pruned.1 else versions
    pruned_ts :=
      if versions.length > MAX_VERSIONS_PER_KEY then max c.pruned_ts pruned.2 else c.pruned_ts
    first_ts :=
      if c.first_ts = 0 ∧ c.pruned_ts = 0 ∧ c.versions = [] then ts else c.first_ts }

/-- Newest version at or before `snapshot`. -/
def visibleVersion (c : Chain) (snapshot : Nat) : Option Version :=
  c.versions.reverse.find? (fun v => v.ts ≤ snapshot)

/-- Newest version visible at `snapshot`, honouring tombstones. -/
def visible (c : Chain) (snapshot : Nat) : Option Value :=
  (c.visibleVersion snapshot).bind fun v => live v.value

/-- Versions are sorted by timestamp. -/
def Sorted (vs : List Version) : Prop := vs.Pairwise (fun a b => a.ts ≤ b.ts)

end Chain

/-! ## Inserting -/

theorem mem_insertVersion {v w : Version} {vs : List Version} :
    w ∈ insertVersion v vs ↔ w = v ∨ w ∈ vs := by
  unfold insertVersion
  conv_rhs => rw [← List.takeWhile_append_dropWhile (p := fun w : Version => w.ts ≤ v.ts) (l := vs)]
  simp only [List.mem_append, List.mem_cons]
  tauto

theorem insertVersion_ne_nil (v : Version) (vs : List Version) :
    insertVersion v vs ≠ [] := by
  simp [insertVersion]

/-- Everything behind the insertion point is newer. -/
theorem lt_of_mem_dropWhile
    {t : Nat} {vs : List Version} (h : Chain.Sorted vs)
    {w : Version} (hw : w ∈ vs.dropWhile (fun w => w.ts ≤ t)) :
    t < w.ts := by
  induction vs with
  | nil => simp at hw
  | cons v vs ih =>
      rw [Chain.Sorted, List.pairwise_cons] at h
      by_cases hv : v.ts ≤ t
      · rw [List.dropWhile_cons_of_pos (by simpa using hv)] at hw
        exact ih h.2 hw
      · rw [List.dropWhile_cons_of_neg (by simpa using hv)] at hw
        rcases List.mem_cons.mp hw with rfl | hw
        · omega
        · have := h.1 w hw
          omega

theorem sorted_insertVersion
    {v : Version} {vs : List Version} (h : Chain.Sorted vs) :
    Chain.Sorted (insertVersion v vs) := by
  have hsplit : Chain.Sorted
      (vs.takeWhile (fun w => w.ts ≤ v.ts) ++ vs.dropWhile (fun w => w.ts ≤ v.ts)) := by
    rw [List.takeWhile_append_dropWhile]
    exact h
  unfold Chain.Sorted at hsplit
  rw [List.pairwise_append] at hsplit
  obtain ⟨htake, hdrop, hcross⟩ := hsplit
  have hbefore : ∀ w ∈ vs.takeWhile (fun w => w.ts ≤ v.ts), w.ts ≤ v.ts := by
    intro w hw
    simpa using List.mem_takeWhile_imp hw
  have hafter : ∀ w ∈ vs.dropWhile (fun w => w.ts ≤ v.ts), v.ts ≤ w.ts :=
    fun w hw => (lt_of_mem_dropWhile h hw).le
  unfold Chain.Sorted insertVersion
  rw [List.pairwise_append, List.pairwise_cons]
  refine ⟨htake, ⟨hafter, hdrop⟩, ?_⟩
  intro a ha b hb
  rcases List.mem_cons.mp hb with rfl | hb
  · exact hbefore a ha
  · exact hcross a ha b hb

/-- The versions of a chain at or before `s`, oldest first. -/
def upTo (s : Nat) (vs : List Version) : List Version := vs.filter (fun v => v.ts ≤ s)

theorem upTo_insertVersion_of_lt
    {v : Version} {s : Nat} (h : s < v.ts) (vs : List Version) :
    upTo s (insertVersion v vs) = upTo s vs := by
  unfold upTo insertVersion
  rw [List.filter_append, List.filter_cons_of_neg (by simpa using h), ← List.filter_append,
    List.takeWhile_append_dropWhile]

/-- A version at least as new as all others goes to the end. -/
theorem insertVersion_of_newest
    {v : Version} {vs : List Version} (h : ∀ w ∈ vs, w.ts ≤ v.ts) :
    insertVersion v vs = vs ++ [v] := by
  unfold insertVersion
  rw [List.takeWhile_eq_self_iff.mpr (by simpa using h),
    List.dropWhile_eq_nil_iff.mpr (by simpa using h)]

/-- A version older than the newest leaves the newest in place. -/
theorem getLast?_insertVersion_of_lt
    {v w : Version} {vs : List Version}
    (hw : vs.getLast? = some w) (hlt : v.ts < w.ts) :
    (insertVersion v vs).getLast? = some w := by
  have hne : vs.dropWhile (fun x => x.ts ≤ v.ts) ≠ [] := by
    intro hnil
    rw [List.dropWhile_eq_nil_iff] at hnil
    have := hnil w (List.mem_of_getLast? hw)
    simp at this
    omega
  have hlast : (vs.dropWhile (fun x => x.ts ≤ v.ts)).getLast? = some w := by
    have hvs := List.takeWhile_append_dropWhile
      (p := fun x : Version => x.ts ≤ v.ts) (l := vs)
    rw [← hvs, List.getLast?_append] at hw
    cases hd : (vs.dropWhile (fun x => x.ts ≤ v.ts)).getLast? with
    | none => exact absurd (List.getLast?_eq_none_iff.mp hd) hne
    | some u =>
        rw [hd] at hw
        simpa using hw
  unfold insertVersion
  rw [List.getLast?_append, List.getLast?_cons, hlast]
  rfl

/-! ## Pruning -/

theorem needed_iff
    {active : List Nat} (h : active.Pairwise (· ≤ ·)) (lo hi : Nat) :
    needed active lo hi = true ↔ ∃ s ∈ active, lo ≤ s ∧ s < hi := by
  induction active with
  | nil => simp [needed]
  | cons a active ih =>
      rw [List.pairwise_cons] at h
      by_cases ha : a < lo
      · have hskip : needed (a :: active) lo hi = needed active lo hi := by
          unfold needed
          rw [List.dropWhile_cons_of_pos (by simpa using ha)]
        rw [hskip, ih h.2]
        constructor
        · rintro ⟨s, hs, hlo, hhi⟩
          exact ⟨s, List.mem_cons_of_mem _ hs, hlo, hhi⟩
        · rintro ⟨s, hs, hlo, hhi⟩
          rcases List.mem_cons.mp hs with rfl | hs
          · omega
          · exact ⟨s, hs, hlo, hhi⟩
      · have hhead : needed (a :: active) lo hi = decide (a < hi) := by
          unfold needed
          rw [List.dropWhile_cons_of_neg (by simpa using ha)]
        rw [hhead, decide_eq_true_iff]
        constructor
        · intro hlt
          exact ⟨a, by simp, by omega, hlt⟩
        · rintro ⟨s, hs, hlo, hhi⟩
          rcases List.mem_cons.mp hs with rfl | hs
          · exact hhi
          · have := h.1 s hs
            omega

theorem pruneLoop_sublist (active : List Nat) (vs : List Version) :
    (pruneLoop active vs).1.Sublist vs := by
  induction vs with
  | nil => simp [pruneLoop]
  | cons v vs ih =>
      rw [pruneLoop]
      split
      · exact ih.cons_cons v
      · exact ih.cons v

/-- The newest version is never pruned. -/
theorem pruneLoop_getLast? (active : List Nat) (vs : List Version) :
    (pruneLoop active vs).1.getLast? = vs.getLast? := by
  induction vs with
  | nil => simp [pruneLoop]
  | cons v vs ih =>
      rw [pruneLoop]
      cases vs with
      | nil => simp [pruneLoop, keepVersion, MAX_VERSIONS_PER_KEY]
      | cons w vs =>
          split
          · rw [List.getLast?_cons, ih, List.getLast?_cons_cons]
            simp [List.getLast?_cons]
          · rw [ih, List.getLast?_cons_cons]

/-- Pruning keeps the version that each open snapshot reads. -/
theorem pruneLoop_upTo_getLast?
    {active : List Nat} (ha : active.Pairwise (· ≤ ·))
    {s : Nat} (hs : s ∈ active)
    {vs : List Version} (hvs : Chain.Sorted vs) :
    (upTo s (pruneLoop active vs).1).getLast? = (upTo s vs).getLast? := by
  induction vs with
  | nil => simp [pruneLoop]
  | cons v vs ih =>
      rw [Chain.Sorted, List.pairwise_cons] at hvs
      have ih := ih hvs.2
      have hsub : upTo s vs = [] → upTo s (pruneLoop active vs).1 = [] := by
        intro hnil
        exact List.sublist_nil.mp (hnil ▸ (pruneLoop_sublist active vs).filter _)
      by_cases hlast : (upTo s vs).getLast? = none
      · -- `v` is the version that `s` reads, if it is old enough
        have hnil : upTo s vs = [] := List.getLast?_eq_none_iff.mp hlast
        have hnil' := hsub hnil
        by_cases hv : v.ts ≤ s
        · have hkeep : (pruneLoop active (v :: vs)).1 = v :: (pruneLoop active vs).1 := by
            rw [pruneLoop, if_pos]
            cases vs with
            | nil => simp [keepVersion, MAX_VERSIONS_PER_KEY]
            | cons w vs =>
                have hw : s < w.ts := by
                  by_contra hle
                  have : w ∈ upTo s (w :: vs) := by
                    simp only [upTo, List.mem_filter, List.mem_cons, true_or, true_and,
                      decide_eq_true_eq]
                    omega
                  rw [hnil] at this
                  simp at this
                have : needed active v.ts w.ts = true :=
                  (needed_iff ha _ _).mpr ⟨s, hs, hv, hw⟩
                simp [keepVersion, this]
          rw [hkeep]
          unfold upTo at hnil hnil' ⊢
          rw [List.filter_cons_of_pos (by simpa using hv),
            List.filter_cons_of_pos (by simpa using hv), hnil, hnil']
        · have hdrop : upTo s (v :: vs) = [] := by
            unfold upTo at hnil ⊢
            rw [List.filter_cons_of_neg (by simpa using hv), hnil]
          rw [hdrop]
          have hle : (upTo s (pruneLoop active (v :: vs)).1).Sublist (upTo s (v :: vs)) :=
            (pruneLoop_sublist active (v :: vs)).filter _
          rw [hdrop] at hle
          rw [List.sublist_nil.mp hle]
      · -- a newer version is read; dropping `v` does not matter
        obtain ⟨w, hw⟩ := Option.ne_none_iff_exists'.mp hlast
        have hw' : (upTo s (pruneLoop active vs).1).getLast? = some w := by rw [ih, hw]
        have hcons : ∀ us : List Version, (upTo s us).getLast? = some w →
            (upTo s (v :: us)).getLast? = some w := by
          intro us hus
          unfold upTo at hus ⊢
          rw [List.filter_cons]
          split
          · rw [List.getLast?_cons, hus]
            rfl
          · exact hus
        rw [hcons vs hw, pruneLoop]
        split
        · exact hcons _ hw'
        · exact hw'

/-! ## The chain operations -/

namespace Chain

/-- A chain as the engine keeps it: never empty, sorted, `latest_ts` cached. -/
structure WF (c : Chain) : Prop where
  sorted : Sorted c.versions
  latest_ts_eq : ∀ v, c.versions.getLast? = some v → c.latest_ts = v.ts
  ne_nil : c.versions ≠ []

theorem visibleVersion_eq (c : Chain) (s : Nat) :
    c.visibleVersion s = (upTo s c.versions).getLast? := by
  unfold visibleVersion upTo
  rw [← List.head?_filter, List.filter_reverse, List.head?_reverse]

/-- A snapshot never shows a tombstone. -/
theorem live_visible {c : Chain} {s : Nat} {v : Value} (h : c.visible s = some v) :
    live v = some v := by
  obtain ⟨w, _, hw⟩ := Option.bind_eq_some_iff.mp h
  have hlive : w.value.isLive = true ∧ w.value = v := by simpa [live] using hw
  rw [live, ← hlive.2, if_pos hlive.1]

theorem push_versions (c : Chain) (ts : Nat) (value : Value) (active : List Nat) :
    (c.push ts value active).versions = insertVersion ⟨ts, value⟩ c.versions ∨
    (c.push ts value active).versions =
      (pruneLoop active (insertVersion ⟨ts, value⟩ c.versions)).1 := by
  unfold push
  simp only
  split
  · exact Or.inr rfl
  · exact Or.inl rfl

/-- A push adds its own version and no other. -/
theorem mem_push
    {c : Chain} {ts : Nat} {value : Value} {active : List Nat} {w : Version}
    (h : w ∈ (c.push ts value active).versions) :
    w = ⟨ts, value⟩ ∨ w ∈ c.versions := by
  rcases c.push_versions ts value active with heq | heq <;> rw [heq] at h
  · exact mem_insertVersion.mp h
  · exact mem_insertVersion.mp ((pruneLoop_sublist _ _).subset h)

theorem sorted_push
    {c : Chain} (h : Sorted c.versions) (ts : Nat) (value : Value) (active : List Nat) :
    Sorted (c.push ts value active).versions := by
  rcases c.push_versions ts value active with heq | heq <;> rw [heq]
  · exact sorted_insertVersion h
  · exact (sorted_insertVersion h).sublist (pruneLoop_sublist _ _)

theorem push_getLast?
    (c : Chain) (ts : Nat) (value : Value) (active : List Nat) :
    (c.push ts value active).versions.getLast? =
      (insertVersion ⟨ts, value⟩ c.versions).getLast? := by
  rcases c.push_versions ts value active with heq | heq <;> rw [heq]
  rw [pruneLoop_getLast?]

/-- A version at least as new as the chain becomes its newest. -/
theorem push_newest
    {c : Chain} {ts : Nat} (h : ∀ w ∈ c.versions, w.ts ≤ ts) (value : Value)
    (active : List Nat) :
    (c.push ts value active).versions.getLast? = some ⟨ts, value⟩ := by
  rw [push_getLast?, insertVersion_of_newest h]
  simp

/-- An older version leaves the newest one in place. -/
theorem push_older
    {c : Chain} {w : Version}
    (hw : c.versions.getLast? = some w) {ts : Nat} (hlt : ts < w.ts) (value : Value)
    (active : List Nat) :
    (c.push ts value active).versions.getLast? = some w := by
  rw [push_getLast?]
  exact getLast?_insertVersion_of_lt hw hlt

theorem le_getLast?
    {vs : List Version} (hs : Sorted vs) {w : Version} (hw : vs.getLast? = some w) :
    ∀ v ∈ vs, v.ts ≤ w.ts := by
  intro v hv
  obtain ⟨us, rfl⟩ := List.getLast?_eq_some_iff.mp hw
  unfold Sorted at hs
  rw [List.pairwise_append] at hs
  rcases List.mem_append.mp hv with hv | hv
  · exact hs.2.2 v hv w (by simp)
  · rw [List.mem_singleton] at hv
    rw [hv]

theorem wf_push
    {c : Chain} (h : c.WF ∨ c = default) (ts : Nat) (value : Value) (active : List Nat) :
    (c.push ts value active).WF := by
  have hsorted : Sorted c.versions := by
    rcases h with h | rfl
    · exact h.sorted
    · exact List.Pairwise.nil
  have hnew : (c.push ts value active).versions ≠ [] := by
    intro hnil
    have := c.push_getLast? ts value active
    rw [hnil] at this
    exact insertVersion_ne_nil _ _ (List.getLast?_eq_none_iff.mp this.symm)
  refine ⟨sorted_push hsorted ts value active, ?_, hnew⟩
  intro v hv
  show max c.latest_ts ts = v.ts
  rcases h with h | rfl
  · obtain ⟨w, hw⟩ : ∃ w, c.versions.getLast? = some w := by
      cases hl : c.versions.getLast? with
      | none => exact absurd (List.getLast?_eq_none_iff.mp hl) h.ne_nil
      | some w => exact ⟨w, rfl⟩
    have hlat := h.latest_ts_eq w hw
    by_cases hlt : ts < w.ts
    · rw [push_older hw hlt] at hv
      cases hv
      omega
    · rw [push_newest (fun u hu => (le_getLast? h.sorted hw u hu).trans (by omega))] at hv
      cases hv
      simp only
      omega
  · rw [push_newest (by simp [default])] at hv
    cases hv
    simp [default]

/-- A push never changes what an open snapshot older than it reads. -/
theorem push_visibleVersion_of_active
    {c : Chain} (hs : Sorted c.versions)
    {active : List Nat} (ha : active.Pairwise (· < ·))
    {s : Nat} (hmem : s ∈ active) {ts : Nat} (hlt : s < ts) (value : Value) :
    (c.push ts value active).visibleVersion s = c.visibleVersion s := by
  rw [visibleVersion_eq, visibleVersion_eq]
  rcases c.push_versions ts value active with heq | heq <;> rw [heq]
  · rw [upTo_insertVersion_of_lt hlt]
  · rw [pruneLoop_upTo_getLast? (ha.imp le_of_lt) hmem (sorted_insertVersion hs),
      upTo_insertVersion_of_lt hlt]

end Chain
end StrikeDB
