import StrikeDB.CommitOrder

/-!
# StrikeDB: what a replica is going to hold

For a key that no thread is at work on, the frames on their way to a replica
decide what it is going to hold, or its copy has it already.

* `Replays`: frames that decide a key leave what was told of it.
* `Follows`: where they do not decide it, a copy holds what was told, as far as
  the dump has come, and the dump is going to.
* `Tracks`: the two, as the link of a replica goes from stage to stage.
-/

namespace StrikeDB
namespace Repl

variable {ρ : Type}

/-- Is the frame written to a replica with a dump at `snap`? -/
def Frame.above (snap : Nat) : Frame → Bool
  | mutation m => snap < m.ts
  | flush => true

/-- Frames that decide a key leave what was told of it. -/
def Replays (e : Engine ρ) (fs : List Frame) : Prop :=
  ∀ k, ¬ e.Unsettled k → (∃ f ∈ fs, f.Writes k) → ∀ vals, replay vals fs k = e.told.value k

/-- A copy `vals`, with the dump at `snap` taken of the shards before `next`, and
`fs` on their way to it. -/
structure Follows (e : Engine ρ) (snap next : Nat) (fs : List Frame) (vals : Vals) : Prop where
  replays : Replays e fs
  dumped : ∀ k, ¬ e.Unsettled k → (∀ f ∈ fs, ¬ f.Writes k) → (shard_of k).val < next →
    vals k = e.told.value k
  undumped : ∀ k, ¬ e.Unsettled k → (∀ f ∈ fs, ¬ f.Writes k) → next ≤ (shard_of k).val →
    ∀ w, e.told[k]? = some w → w.1 ≤ snap

/-- What of the unpublished batch is on its way to a replica is the end of it. -/
def Recent (e : Engine ρ) (fs : List Frame) : Prop :=
  fs.filter (Frame.unpublished e.core.visible_ts) <:+ e.calling

/-! ## Calls that become due -/

section Tells

variable {e e' : Engine ρ} {new : List Frame}

theorem writes_calls {j : Job ρ} {k : Key} :
    (∃ f ∈ Job.calls j, f.Writes k) ↔ ∃ m ∈ j.muts, m.key = k := by
  simp [Job.calls, Frame.Writes]

/-- Calls that decide a key leave what is told of it from now on. -/
theorem told_of_writes
    (h : e.Tells e' new) {k : Key} (hw : ∃ f ∈ new, f.Writes k) (vals : Vals) :
    replay vals new k = e'.told.value k := by
  cases h with
  | quiet _ _ => simp at hw
  | muts j htold _ _ =>
      rw [htold, ← replay_muts]
      exact replay_of_writes hw _ _
  | flush htold =>
      rw [htold]
      simp [Frame.on, Keyspace.value]

/-- Nothing is new of other keys. -/
theorem told_of_not_writes
    (h : e.Tells e' new) {k : Key} (hk : ¬ e'.Unsettled k) (hw : ∀ f ∈ new, ¬ f.Writes k) :
    ¬ e.Unsettled k ∧ e'.told[k]? = e.told[k]? := by
  cases h with
  | quiet htold hgrow => exact ⟨fun hu => hk (hgrow k hu), by rw [htold]⟩
  | muts j htold _ hsettles =>
      have hnot : ∀ m ∈ j.muts, m.key ≠ k := by
        intro m hm hkey
        obtain ⟨f, hf, hfw⟩ := writes_calls.mpr ⟨m, hm, hkey⟩
        exact hw f hf hfw
      constructor
      · intro hu
        obtain ⟨m, hm, hkey⟩ := hsettles k hu
        exact hnot m hm hkey
      · rw [htold, Keyspace.getElem?_commit_of_not_mem hnot]
  | flush _ => exact absurd trivial (hw .flush (by simp))

theorem calls_above
    (h : e.Tells e' new) {snap : Nat} (hle : snap ≤ e.core.visible_ts) :
    new.filter (Frame.above snap) = new := by
  rw [List.filter_eq_self]
  intro f hf
  cases h with
  | quiet _ _ => simp at hf
  | muts j _ hfresh _ =>
      rw [Job.calls, List.mem_map] at hf
      obtain ⟨m, hm, rfl⟩ := hf
      exact decide_eq_true (hle.trans_lt (hfresh m hm))
  | flush _ =>
      rw [List.mem_singleton] at hf
      rw [hf]
      rfl

theorem Replays.tells {fs : List Frame} (h : Replays e fs) (ht : e.Tells e' new) :
    Replays e' (fs ++ new) := by
  intro k hk hw vals
  rw [replay_append]
  by_cases hnew : ∃ f ∈ new, f.Writes k
  · exact told_of_writes ht hnew _
  · have hnot : ∀ f ∈ new, ¬ f.Writes k := fun f hf hfw => hnew ⟨f, hf, hfw⟩
    obtain ⟨hk', htold⟩ := told_of_not_writes ht hk hnot
    have hold : ∃ f ∈ fs, f.Writes k := by
      obtain ⟨f, hf, hfw⟩ := hw
      rcases List.mem_append.mp hf with hf | hf
      · exact ⟨f, hf, hfw⟩
      · exact absurd hfw (hnot f hf)
    rw [replay_of_not_writes hnot, h k hk' hold vals, Keyspace.value_congr htold]

theorem Follows.tells
    {snap next : Nat} {fs : List Frame} {vals : Vals} (h : Follows e snap next fs vals)
    (ht : e.Tells e' new) :
    Follows e' snap next (fs ++ new) vals := by
  refine ⟨h.replays.tells ht, ?_, ?_⟩
  · intro k hk hw hlt
    obtain ⟨hk', htold⟩ := told_of_not_writes ht hk fun f hf => hw f (List.mem_append_right _ hf)
    rw [Keyspace.value_congr htold]
    exact h.dumped k hk' (fun f hf => hw f (List.mem_append_left _ hf)) hlt
  · intro k hk hw hle w hw'
    obtain ⟨hk', htold⟩ := told_of_not_writes ht hk fun f hf => hw f (List.mem_append_right _ hf)
    rw [htold] at hw'
    exact h.undumped k hk' (fun f hf => hw f (List.mem_append_left _ hf)) hle w hw'

theorem Recent.step
    {fs : List Frame} (h : Recent e fs) (hle : e.core.visible_ts ≤ e'.core.visible_ts)
    (hcalling : e'.calling = (e.calling ++ new).filter (Frame.unpublished e'.core.visible_ts)) :
    Recent e' (fs ++ new) := by
  have hsame : fs.filter (Frame.unpublished e'.core.visible_ts) =
      (fs.filter (Frame.unpublished e.core.visible_ts)).filter
        (Frame.unpublished e'.core.visible_ts) := by
    rw [List.filter_filter]
    refine List.filter_congr ?_
    intro f _
    cases f with
    | mutation m =>
        simp only [Frame.unpublished]
        rw [Bool.eq_iff_iff, Bool.and_eq_true, decide_eq_true_eq, decide_eq_true_eq]
        omega
    | flush => rfl
  obtain ⟨lost, hlost⟩ := h
  rw [Recent, hcalling, List.filter_append, List.filter_append, hsame, ← hlost, List.filter_append,
    List.append_assoc]
  exact List.suffix_append _ _

end Tells

/-! ## Frames that move on -/

/-- Frame lists that do the same. -/
def Same (fs fs' : List Frame) : Prop :=
  (∀ vals, replay vals fs = replay vals fs') ∧ ∀ f, f ∈ fs ↔ f ∈ fs'

/-- A call may be made before earlier ones that it does not conflict with. -/
theorem same_swap
    {f : Frame} {pre : List Frame} (h : ∀ f' ∈ pre, ¬ f.Conflicts f') (queue post : List Frame)
    (keep : Frame → Bool) :
    Same ((queue ++ (pre ++ f :: post)).filter keep)
      ((queue ++ [f] ++ (pre ++ post)).filter keep) := by
  have hpre : ∀ f' ∈ pre.filter keep, ¬ f.Conflicts f' := fun f' hf' =>
    h f' (List.mem_of_mem_filter hf')
  constructor
  · intro vals
    simp only [List.filter_append, replay_append]
    by_cases hkeep : keep f = true
    · rw [List.filter_cons_of_pos hkeep, List.filter_cons_of_pos hkeep, ← replay_append,
        ← replay_swap hpre, replay_cons, replay_append]
      rfl
    · rw [List.filter_cons_of_neg hkeep, List.filter_cons_of_neg hkeep]
      rfl
  · intro f'
    simp only [List.mem_filter, List.mem_append, List.mem_cons, List.not_mem_nil, or_false]
    tauto

theorem same_swap_all
    {f : Frame} {pre : List Frame} (h : ∀ f' ∈ pre, ¬ f.Conflicts f') (queue post : List Frame) :
    Same (queue ++ (pre ++ f :: post)) (queue ++ [f] ++ (pre ++ post)) := by
  have hall := same_swap h queue post fun _ => true
  rwa [List.filter_true, List.filter_true] at hall

theorem Replays.same {e : Engine ρ} {fs fs' : List Frame} (h : Replays e fs) (hs : Same fs fs') :
    Replays e fs' := by
  intro k hk hw vals
  rw [← hs.1 vals]
  refine h k hk ?_ vals
  obtain ⟨f, hf, hfw⟩ := hw
  exact ⟨f, (hs.2 f).mpr hf, hfw⟩

theorem Follows.same
    {e : Engine ρ} {snap next : Nat} {fs fs' : List Frame} {vals : Vals}
    (h : Follows e snap next fs vals) (hs : Same fs fs') :
    Follows e snap next fs' vals :=
  ⟨h.replays.same hs, fun k hk hw => h.dumped k hk fun f hf => hw f ((hs.2 f).mp hf),
    fun k hk hw => h.undumped k hk fun f hf => hw f ((hs.2 f).mp hf)⟩

/-- The first frame may be missing. -/
theorem Replays.tail {e : Engine ρ} {f : Frame} {fs : List Frame} (h : Replays e (f :: fs)) :
    Replays e fs := by
  intro k hk hw vals
  obtain ⟨f', hf', hfw⟩ := hw
  rw [replay_of_writes ⟨f', hf', hfw⟩ vals (f.on vals), ← replay_cons]
  exact h k hk ⟨f', List.mem_cons_of_mem _ hf', hfw⟩ vals

/-- The first frame reaches a copy that has the whole dump. -/
theorem Follows.stream
    {e : Engine ρ} {snap : Nat} {f : Frame} {fs : List Frame} {vals : Vals}
    (h : Follows e snap SHARD_COUNT (f :: fs) vals) :
    Follows e snap SHARD_COUNT fs (f.on vals) := by
  refine ⟨h.replays.tail, ?_, ?_⟩
  · intro k hk hw hlt
    rw [← replay_of_not_writes hw (f.on vals), ← replay_cons]
    by_cases hf : f.Writes k
    · exact h.replays k hk ⟨f, by simp, hf⟩ vals
    · have hall : ∀ f' ∈ f :: fs, ¬ f'.Writes k := List.forall_mem_cons.mpr ⟨hf, hw⟩
      rw [replay_of_not_writes hall]
      exact h.dumped k hk hall hlt
  · intro k _ _ hle
    exact absurd (shard_of k).isLt (Nat.not_lt.mpr hle)

/-- Calls of published batches do not matter for what is recent. -/
theorem filter_unpublished_swap
    {f : Frame} {pre : List Frame} {v : Nat}
    (h : f.unpublished v = false ∨ pre.filter (Frame.unpublished v) = []) (post : List Frame) :
    (pre ++ f :: post).filter (Frame.unpublished v) =
      (f :: (pre ++ post)).filter (Frame.unpublished v) := by
  rw [List.filter_append, List.filter_cons, List.filter_cons, List.filter_append]
  rcases h with hf | hpre
  · rw [hf]
    rfl
  · rw [hpre]
    rfl

theorem Recent.swap
    {e : Engine ρ} {f : Frame} {queue pre post : List Frame}
    (h : Recent e (queue ++ (pre ++ f :: post)))
    (hf : f.unpublished e.core.visible_ts = false ∨
      pre.filter (Frame.unpublished e.core.visible_ts) = []) :
    Recent e (queue ++ [f] ++ (pre ++ post)) := by
  rw [Recent, List.filter_append, filter_unpublished_swap hf, ← List.filter_append] at h
  rw [List.append_assoc]
  exact h

theorem Recent.suffix
    {e : Engine ρ} {fs fs' : List Frame} (h : Recent e fs) (hs : fs' <:+ fs) : Recent e fs' :=
  (hs.filter _).trans h

/-! ## The dump -/

/-- The state at the pin of a dump is good: a frame that is not going to be written, since
the dump contains its mutation, is not missed behind a FLUSHALL, and of the batch in work
no key is missed. -/
structure PinClean (e : Engine ρ) (fs : List Frame) : Prop where
  flushed : ∀ pre m post, fs = pre ++ Frame.mutation m :: post → Frame.flush ∈ pre →
    m.ts ≤ e.core.visible_ts →
    ∃ f ∈ post, f.above e.core.visible_ts = true ∧ f.Writes m.key
  called : ∀ j, e.phase .flusher = .publishing j .applied → ∀ m ∈ j.muts,
    ∃ f ∈ fs, f.above e.core.visible_ts = true ∧ f.Writes m.key

theorem above_eq_unpublished
    {fs : List Frame} (h : Frame.flush ∉ fs) (v : Nat) :
    fs.filter (Frame.above v) = fs.filter (Frame.unpublished v) := by
  refine List.filter_congr ?_
  intro f hf
  cases f with
  | mutation m => rfl
  | flush => exact absurd hf h

/-- A dump that starts at a good moment. -/
theorem Replays.pin
    {e : Engine ρ} {fs : List Frame} (h : Replays e fs) (hrecent : Recent e fs)
    (hr : e.Reflected) (ht : e.Timely) (hclean : PinClean e fs) (vals : Vals) :
    Follows e e.core.visible_ts 0 (fs.filter (Frame.above e.core.visible_ts)) vals := by
  refine ⟨?_, fun k _ _ hlt => absurd hlt (Nat.not_lt_zero _), ?_⟩
  · intro k hk hw vals
    obtain ⟨f, hf, hfw⟩ := hw
    by_cases hflush : Frame.flush ∈ fs
    · rw [replay_filter ?_ vals]
      · exact h k hk ⟨f, List.mem_of_mem_filter hf, hfw⟩ vals
      · intro pre f' post heq hfw' hskip
        cases f' with
        | flush => simp [Frame.above] at hskip
        | mutation m =>
            have hkey : m.key = k := hfw'
            rw [heq, List.mem_append, List.mem_cons] at hflush
            rcases hflush with hpre | hpost | hpost
            · rw [← hkey]
              exact hclean.flushed pre m post heq hpre (by simpa [Frame.above] using hskip)
            · cases hpost
            · exact ⟨.flush, hpost, rfl, trivial⟩
    · rw [above_eq_unpublished hflush] at hf ⊢
      obtain ⟨lost, hlost⟩ := hrecent
      obtain ⟨j, hp, hcalls⟩ := Engine.calling_cases (s := e) (f := f) (by
        rw [← hlost]
        exact List.mem_append_right _ hf)
      have hall : replay (replay e.keyspace.value lost)
          (fs.filter (Frame.unpublished e.core.visible_ts)) k =
            (e.keyspace.commit j.muts).value k := by
        rw [← replay_append, hlost, hcalls, Job.calls, replay_muts]
      rw [replay_of_writes ⟨f, hf, hfw⟩ vals, hall, Engine.told, hp, Phase.announced,
        Job.after_applied]
  · intro k hk hw _ w htold
    rcases hr.told_le ht htold with hle | ⟨j, hp, m, hm, hkey⟩
    · exact hle
    · obtain ⟨f, hf, habove, hfw⟩ := hclean.called j hp m hm
      exact absurd (hkey ▸ hfw) (hw f (List.mem_filter.mpr ⟨hf, habove⟩))

/-- A copy that has lost what was deleted anyway, or what the frames decide. -/
theorem Follows.lose
    {e : Engine ρ} {snap next : Nat} {fs : List Frame} {vals vals' : Vals}
    (h : Follows e snap next fs vals)
    (hlost : ∀ k, vals' k = vals k ∨ (e.told.value k = none ∧ vals' k = none) ∨
      ∃ f ∈ fs, f.Writes k) :
    Follows e snap next fs vals' := by
  refine ⟨h.replays, ?_, h.undumped⟩
  intro k hk hw hlt
  rcases hlost k with heq | ⟨htold, hnone⟩ | ⟨f, hf, hfw⟩
  · rw [heq]
    exact h.dumped k hk hw hlt
  · rw [hnone, htold]
  · exact absurd hfw (hw f hf)

/-- The dump of a shard. -/
theorem Follows.dump
    {e : Engine ρ} {snap next : Nat} {fs : List Frame} {vals : Vals}
    (h : Follows e snap next fs vals) (vals' : Vals) (hr : e.Reflected) (ht : e.Timely) (hplain : e.DirectPlain)
    (hvals : ∀ k, (shard_of k).val = next → vals' k = e.core.get_at k snap)
    (hkeep : ∀ k, (shard_of k).val < next → vals' k = vals k) :
    Follows e snap (next + 1) fs vals' := by
  refine ⟨h.replays, ?_, ?_⟩
  · intro k hk hw hlt
    rcases Nat.lt_succ_iff_lt_or_eq.mp hlt with hlt | heq
    · rw [hkeep k hlt]
      exact h.dumped k hk hw hlt
    · rw [hvals k heq]
      exact hr.get_at ht hplain hk (h.undumped k hk hw heq.ge)
  · intro k hk hw hle
    exact h.undumped k hk hw (Nat.le_of_succ_le hle)

end Repl
end StrikeDB
