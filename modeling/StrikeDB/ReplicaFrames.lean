import StrikeDB.Replication

/-!
# StrikeDB: what frames do to a keyspace

Only values matter here: `replay` runs the frames of a queue over a keyspace, and
`Copy` is a replica without timestamps, which reads the socket frame by frame.

* `Replica.copy_takeFrame`, `Replica.copy_apply_muts`: a replica is such a copy,
  also where it applies several mutations at once.
* `replay_congr`, `replay_of_writes`: a key depends on what was there before only
  if nothing is written to it.
* `replay_swap`: frames that do not conflict may change places.
* `replay_filter`: which frames may be left out.
-/

namespace StrikeDB
namespace Repl

/-- The live values of a keyspace. -/
abbrev Vals := Key → Option Value

def put (vals : Vals) (k : Key) (v : Value) : Vals := Function.update vals k (live v)

def putAll (vals : Vals) (kvs : List (Key × Value)) : Vals :=
  kvs.foldl (fun vals kv => put vals kv.1 kv.2) vals

theorem put_apply (vals : Vals) (k : Key) (v : Value) (a : Key) :
    put vals k v a = if a = k then live v else vals a := Function.update_apply ..

theorem putAll_append (vals : Vals) (kvs kvs' : List (Key × Value)) :
    putAll vals (kvs ++ kvs') = putAll (putAll vals kvs) kvs' := List.foldl_append

theorem putAll_of_not_mem
    {kvs : List (Key × Value)} {k : Key} (h : ∀ kv ∈ kvs, kv.1 ≠ k) (vals : Vals) :
    putAll vals kvs k = vals k := by
  induction kvs generalizing vals with
  | nil => rfl
  | cons kv kvs ih =>
      rw [List.forall_mem_cons] at h
      have hne : k ≠ kv.1 := fun heq => h.1 heq.symm
      exact (ih h.2 _).trans ((put_apply _ _ _ _).trans (if_neg hne))

/-- All pairs for a key say the same of it. -/
theorem putAll_of_mem
    {kvs : List (Key × Value)} {k : Key} {v : Option Value}
    (h : ∀ kv ∈ kvs, kv.1 = k → live kv.2 = v) (hex : ∃ kv ∈ kvs, kv.1 = k) (vals : Vals) :
    putAll vals kvs k = v := by
  induction kvs generalizing vals with
  | nil => simp at hex
  | cons kv kvs ih =>
      rw [List.forall_mem_cons] at h
      by_cases hlater : ∃ kv ∈ kvs, kv.1 = k
      · exact ih h.2 hlater _
      · have hkey : kv.1 = k := by
          obtain ⟨kv', hkv', hkey⟩ := hex
          rcases List.mem_cons.mp hkv' with rfl | hmem
          · exact hkey
          · exact absurd ⟨kv', hmem, hkey⟩ hlater
        have hrest : ∀ kv ∈ kvs, kv.1 ≠ k := fun kv hkv hk => hlater ⟨kv, hkv, hk⟩
        refine (putAll_of_not_mem hrest _).trans ((put_apply _ _ _ _).trans ?_)
        rw [if_pos hkey.symm]
        exact h.1 hkey

/-! ## Replaying frames -/

namespace Frame

def on (vals : Vals) : Frame → Vals
  | mutation m => put vals m.key m.value
  | flush => fun _ => none

/-- Does the frame decide what is under this key? -/
def Writes (k : Key) : Frame → Prop
  | mutation m => m.key = k
  | flush => True

/-- Frames whose order matters. -/
def Conflicts : Frame → Frame → Prop
  | mutation m, mutation m' => m.key = m'.key
  | _, _ => True

instance (f f' : Frame) : Decidable (f.Conflicts f') := by
  cases f <;> cases f' <;> unfold Conflicts <;> infer_instance

end Frame

def replay (vals : Vals) (fs : List Frame) : Vals := fs.foldl Frame.on vals

@[simp] theorem replay_nil (vals : Vals) : replay vals [] = vals := rfl

@[simp] theorem replay_cons (vals : Vals) (f : Frame) (fs : List Frame) :
    replay vals (f :: fs) = replay (f.on vals) fs := rfl

theorem replay_append (vals : Vals) (fs fs' : List Frame) :
    replay vals (fs ++ fs') = replay (replay vals fs) fs' := List.foldl_append

/-- A key depends only on what was under it. -/
theorem replay_congr
    {vals vals' : Vals} {k : Key} (h : vals k = vals' k) (fs : List Frame) :
    replay vals fs k = replay vals' fs k := by
  induction fs generalizing vals vals' with
  | nil => exact h
  | cons f fs ih =>
      refine ih ?_
      cases f with
      | mutation m => simp only [Frame.on, put_apply, h]
      | flush => rfl

/-- A key that a frame decides does not depend on what was before. -/
theorem replay_of_writes
    {fs : List Frame} {k : Key} (h : ∃ f ∈ fs, f.Writes k) (vals vals' : Vals) :
    replay vals fs k = replay vals' fs k := by
  obtain ⟨f, hf, hw⟩ := h
  obtain ⟨pre, post, rfl⟩ := List.append_of_mem hf
  rw [replay_append, replay_append, replay_cons, replay_cons]
  refine replay_congr ?_ post
  cases f with
  | mutation m =>
      have hk : m.key = k := hw
      simp [Frame.on, put_apply, hk]
  | flush => rfl

theorem replay_of_not_writes
    {fs : List Frame} {k : Key} (h : ∀ f ∈ fs, ¬ f.Writes k) (vals : Vals) :
    replay vals fs k = vals k := by
  induction fs generalizing vals with
  | nil => rfl
  | cons f fs ih =>
      rw [List.forall_mem_cons] at h
      obtain ⟨hf, hfs⟩ := h
      rw [replay_cons, ih hfs]
      cases f with
      | mutation m =>
          have hne : k ≠ m.key := fun heq => hf heq.symm
          simp [Frame.on, put_apply, hne]
      | flush => exact absurd trivial hf

/-- Behind a FLUSHALL nothing is left of what was before. -/
theorem replay_flush (vals : Vals) (pre post : List Frame) :
    replay vals (pre ++ .flush :: post) = replay (fun _ => none) post := by
  rw [replay_append, replay_cons]
  rfl

theorem on_comm {f f' : Frame} (h : ¬ f.Conflicts f') (vals : Vals) :
    f.on (f'.on vals) = f'.on (f.on vals) := by
  cases f with
  | flush => exact absurd trivial h
  | mutation m =>
      cases f' with
      | flush => exact absurd trivial h
      | mutation m' => exact (Function.update_comm h _ _ _).symm

/-- A frame may be taken in front of frames that it does not conflict with. -/
theorem replay_swap
    {f : Frame} {pre : List Frame} (h : ∀ f' ∈ pre, ¬ f.Conflicts f') (vals : Vals)
    (post : List Frame) : replay vals (f :: (pre ++ post)) = replay vals (pre ++ f :: post) := by
  induction pre generalizing vals with
  | nil => rfl
  | cons f' pre ih =>
      rw [List.forall_mem_cons] at h
      obtain ⟨hf', hpre⟩ := h
      rw [List.cons_append, replay_cons, replay_cons, ← on_comm hf', List.cons_append, replay_cons,
        ← ih hpre, replay_cons]

/-- Frames may be left out where a later one that stays decides the same key. -/
theorem replay_filter
    {keep : Frame → Bool} {fs : List Frame} {k : Key}
    (h : ∀ pre f post, fs = pre ++ f :: post → f.Writes k → keep f = false →
      ∃ f' ∈ post, keep f' = true ∧ f'.Writes k)
    (vals : Vals) :
    replay vals (fs.filter keep) k = replay vals fs k := by
  induction fs generalizing vals with
  | nil => rfl
  | cons f fs ih =>
      have ih' := ih fun pre f' post heq => h (f :: pre) f' post (by rw [heq]; rfl)
      by_cases hkeep : keep f = true
      · rw [List.filter_cons_of_pos hkeep, replay_cons, replay_cons, ih']
      · rw [List.filter_cons_of_neg hkeep, replay_cons, ih']
        by_cases hw : f.Writes k
        · obtain ⟨f', hf', _, hw'⟩ := h [] f fs rfl hw (by simpa using hkeep)
          exact replay_of_writes ⟨f', hf', hw'⟩ _ _
        · refine replay_congr ?_ fs
          have hone : replay vals [f] k = vals k := replay_of_not_writes (by simpa using hw) vals
          exact hone.symm

/-- Replaying the calls for a batch is committing it. -/
theorem replay_muts (ks : Keyspace) (muts : List Mutation) :
    replay ks.value (muts.map .mutation) = (ks.commit muts).value := by
  induction muts generalizing ks with
  | nil => rfl
  | cons m muts ih =>
      have hwrite : Frame.on ks.value (.mutation m) = (ks.write m).value := by
        funext k
        simp only [Frame.on, put_apply, Keyspace.value, Keyspace.getElem?_write]
        by_cases hk : m.key = k
        · simp [hk]
        · have hne : k ≠ m.key := fun heq => hk heq.symm
          simp [hk, hne]
      rw [List.map_cons, replay_cons, hwrite, ih, Keyspace.commit_cons]

/-! ## A replica without timestamps -/

structure Copy where
  stored : Vals
  batch : List (Key × Value)

namespace Copy

/-- What is there once the rest of the snapshot is stored. -/
def vals (c : Copy) : Vals := putAll c.stored c.batch

def take (c : Copy) : Wire → Copy
  | .snap m =>
      let batch := c.batch ++ [(m.key, m.value)]
      if batch.length ≥ BATCH then { stored := putAll c.stored batch, batch := [] }
      else { c with batch := batch }
  | .ready _ => { stored := putAll c.stored c.batch, batch := [] }
  | .mutation m => { c with stored := put c.stored m.key m.value }
  | .ping _ => c
  | .flush => { c with stored := fun _ => none }

/-- All frames on the socket. -/
def read (c : Copy) (w : List Wire) : Copy := w.foldl take c

theorem read_append (c : Copy) (w w' : List Wire) : c.read (w ++ w') = (c.read w).read w' :=
  List.foldl_append

theorem read_cons (c : Copy) (f : Wire) (w : List Wire) : c.read (f :: w) = (c.take f).read w := rfl

theorem vals_take_snap (c : Copy) (m : Mutation) :
    (c.take (.snap m)).vals = put c.vals m.key m.value := by
  have hbatch : putAll c.stored (c.batch ++ [(m.key, m.value)]) = put c.vals m.key m.value :=
    putAll_append _ _ _
  simp only [take]
  split
  · exact hbatch
  · exact hbatch

theorem vals_read_snaps (c : Copy) (ms : List Mutation) :
    (c.read (ms.map .snap)).vals = putAll c.vals (ms.map fun m => (m.key, m.value)) := by
  induction ms generalizing c with
  | nil => rfl
  | cons m ms ih =>
      rw [List.map_cons, read_cons, ih, vals_take_snap]
      rfl

theorem vals_take_ready (c : Copy) (snap : Nat) : (c.take (.ready snap)).vals = c.vals := rfl

theorem batch_take_ready (c : Copy) (snap : Nat) : (c.take (.ready snap)).batch = [] := rfl

/-- Copies that differ in what is stored go on alike. -/
theorem batch_read {c c' : Copy} (h : c.batch = c'.batch) (w : List Wire) :
    (c.read w).batch = (c'.read w).batch := by
  induction w generalizing c c' with
  | nil => exact h
  | cons f w ih =>
      refine ih ?_
      cases f with
      | snap m =>
          simp only [take, h]
          split <;> rfl
      | ready _ => rfl
      | mutation _ | ping _ | flush => exact h

theorem putAll_congr {vals vals' : Vals} {k : Key} (h : vals k = vals' k)
    (kvs : List (Key × Value)) : putAll vals kvs k = putAll vals' kvs k := by
  induction kvs generalizing vals vals' with
  | nil => exact h
  | cons kv kvs ih =>
      refine ih ?_
      simp only [put_apply, h]

theorem putAll_lost {vals vals' : Vals} {k : Key} (h : vals' k = vals k ∨ vals' k = none)
    (kvs : List (Key × Value)) :
    putAll vals' kvs k = putAll vals kvs k ∨ putAll vals' kvs k = none := by
  induction kvs generalizing vals vals' with
  | nil => exact h
  | cons kv kvs ih =>
      refine ih ?_
      simp only [put_apply]
      by_cases hk : k = kv.1
      · exact Or.inl (by rw [if_pos hk, if_pos hk])
      · rw [if_neg hk, if_neg hk]
        exact h

/-- Of what is stored only the value under a key matters for it. -/
theorem vals_read_congr
    {c c' : Copy} (hbatch : c.batch = c'.batch) {k : Key} (h : c.stored k = c'.stored k)
    (w : List Wire) : (c.read w).vals k = (c'.read w).vals k := by
  induction w generalizing c c' with
  | nil =>
      rw [read, read, List.foldl_nil, List.foldl_nil, vals, vals, hbatch]
      exact putAll_congr h _
  | cons f w ih =>
      rw [read_cons, read_cons]
      refine ih (batch_read hbatch [f]) ?_
      cases f with
      | snap m =>
          simp only [take, hbatch]
          split
          · exact putAll_congr h _
          · exact h
      | ready _ =>
          simp only [take, hbatch]
          exact putAll_congr h _
      | mutation m => simp only [take, put_apply, h]
      | ping _ => exact h
      | flush => rfl

/-- A value that is missing stays missing, or the frames make up for it. -/
theorem vals_read_lost
    {c c' : Copy} (hbatch : c'.batch = c.batch) {k : Key}
    (h : c'.stored k = c.stored k ∨ c'.stored k = none) (w : List Wire) :
    (c'.read w).vals k = (c.read w).vals k ∨ (c'.read w).vals k = none := by
  induction w generalizing c c' with
  | nil =>
      rw [read, read, List.foldl_nil, List.foldl_nil, vals, vals, hbatch]
      exact putAll_lost h _
  | cons f w ih =>
      rw [read_cons, read_cons]
      refine ih (batch_read hbatch [f]) ?_
      cases f with
      | snap m =>
          simp only [take, hbatch]
          split
          · exact putAll_lost h _
          · exact h
      | ready _ =>
          simp only [take, hbatch]
          exact putAll_lost h _
      | mutation m => exact putAll_lost h [(m.key, m.value)]
      | ping _ => exact h
      | flush => exact Or.inl rfl

end Copy

namespace Replica

def copy (r : Replica) : Copy := { stored := r.ks.value, batch := r.batch }

theorem value_put_batch (r : Replica) (kvs : List (Key × Value)) :
    (r.put_batch kvs).ks.value = putAll r.ks.value kvs := by
  funext k
  rw [put_batch, Keyspace.value_commit_opMuts]
  induction kvs using List.reverseRecOn with
  | nil => simp [putAll]
  | append_singleton kvs kv ih =>
      rw [List.foldl_append, List.foldl_cons, List.foldl_nil, FlushCore.map_getElem?_insert,
        putAll_append]
      by_cases hk : kv.1 = k
      · simp [putAll, put_apply, hk]
      · have hne : k ≠ kv.1 := fun heq => hk heq.symm
        rw [if_neg hk, ih]
        simp [putAll, put_apply, hne]

theorem copy_apply_muts (r : Replica) (muts : List Mutation) :
    (r.apply_muts muts).copy = r.copy.read (muts.map .mutation) := by
  have hvalue : (r.apply_muts muts).ks.value =
      putAll r.ks.value (muts.map fun m => (m.key, m.value)) := value_put_batch _ _
  have hread : ∀ c : Copy, c.read (muts.map .mutation) =
      { c with stored := putAll c.stored (muts.map fun m => (m.key, m.value)) } := by
    induction muts with
    | nil => exact fun c => rfl
    | cons m muts ih =>
        intro c
        rw [List.map_cons, Copy.read_cons, ih (value_put_batch _ _)]
        rfl
  rw [hread, copy, hvalue]
  rfl

theorem copy_takeFrame (r : Replica) (f : Wire) : (r.takeFrame f).copy = r.copy.take f := by
  cases f with
  | snap m =>
      by_cases hfull : (r.batch ++ [(m.key, m.value)]).length ≥ BATCH
      · have hsnap : r.takeSnap m = { ({ r with
              max_ts := max r.max_ts m.ts
              batch := r.batch ++ [(m.key, m.value)] } : Replica).put_batch
                (r.batch ++ [(m.key, m.value)]) with batch := [] } := if_pos hfull
        have hcopy : r.copy.take (.snap m) =
            { stored := putAll r.ks.value (r.batch ++ [(m.key, m.value)]), batch := [] } :=
          if_pos hfull
        rw [takeFrame, hsnap, hcopy, copy, value_put_batch]
      · have hsnap : r.takeSnap m = { r with
              max_ts := max r.max_ts m.ts
              batch := r.batch ++ [(m.key, m.value)] } := if_neg hfull
        have hcopy : r.copy.take (.snap m) =
            { r.copy with batch := r.batch ++ [(m.key, m.value)] } := if_neg hfull
        rw [takeFrame, hsnap, hcopy]
        rfl
  | ready snap =>
      simp only [takeFrame, takeReady, Copy.take, copy]
      split
      · next hempty => simp [hempty, putAll]
      · simp [value_put_batch]
  | mutation m => exact copy_apply_muts r [m]
  | ping ts => rfl
  | flush =>
      have hempty : (∅ : Keyspace).value = fun _ => none := by
        funext k
        simp [Keyspace.value]
      simp only [takeFrame, wipe_local, Copy.take, copy, hempty]

end Replica

theorem leadingMuts_append (n : Nat) (w : List Wire) :
    (leadingMuts n w).1.map .mutation ++ (leadingMuts n w).2 = w := by
  induction n generalizing w with
  | zero => cases w <;> rfl
  | succ n ih =>
      cases w with
      | nil => rfl
      | cons f w =>
          cases f with
          | mutation m => simp [leadingMuts, ih]
          | snap _ | ready _ | ping _ | flush => rfl

end Repl
end StrikeDB
