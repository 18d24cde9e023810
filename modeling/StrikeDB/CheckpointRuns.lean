import StrikeDB.CheckpointPins

/-!
# StrikeDB: checkpoints are exact if their snapshot is registered in time

Between the rotation of the log and the registration of the snapshot nothing
protects what the snapshot reads: a commit applied there prunes and buries without
it, and a sweep that starts there may remove a key between the counting and the
writing pass.

* `checkpoints_exact`: in every run where no newer commit is applied in that
  moment, every checkpoint succeeds and its file holds exactly the live keys of
  the commits up to its snapshot.
* `swept_between_the_passes`: a run in which a checkpoint fails.
-/

namespace StrikeDB

section Checkpoints

variable {ρ : Type}

namespace Keyspace

variable {ks : Keyspace}

theorem mem_lives {e : Key × (Nat × Value)} :
    e ∈ ks.lives ↔ ks[e.1]? = some e.2 ∧ e.2.2.isLive = true := by
  simp only [lives, List.mem_flatMap, List.mem_range, mem_liveIn]
  constructor
  · rintro ⟨i, _, he, _, hlive⟩
    exact ⟨he, hlive⟩
  · rintro ⟨he, hlive⟩
    exact ⟨(shard_of e.1).val, (shard_of e.1).isLt, he, rfl, hlive⟩

/-- No key is listed twice. -/
theorem lives_nodup (ks : Keyspace) : (ks.lives.map Prod.fst).Nodup := by
  rw [lives, List.map_flatMap, List.nodup_flatMap]
  constructor
  · intro i _
    rw [List.Nodup, List.pairwise_map]
    exact List.Pairwise.imp (fun {a b} hlt => KeyLt.key_ne hlt) (ks.liveIn_sorted i)
  · refine List.Pairwise.imp ?_ List.nodup_range
    intro i j hne k hi hj
    obtain ⟨a, ha, rfl⟩ := List.mem_map.mp hi
    obtain ⟨b, hb, hkey⟩ := List.mem_map.mp hj
    have hshard := (mem_liveIn.mp ha).2.1
    rw [← hkey, (mem_liveIn.mp hb).2.1] at hshard
    exact hne hshard.symm

end Keyspace

/-- The file lists the live keys, each once, with its value and its timestamp. -/
def Copies (file : Bytes) (ks : Keyspace) : Prop :=
  ∃ records, file = snapshotFile records ∧ (records.map Mutation.key).Nodup ∧
    ∀ m, m ∈ records ↔ ks[m.key]? = some (m.ts, m.value) ∧ m.value.isLive = true

theorem copies_lives (ks : Keyspace) :
    Copies (checkpointFile ks.lives.length (ks.lives.map entryRecord)) ks := by
  refine ⟨ks.lives.map entryRecord, by simp [checkpointFile, snapshotFile], ?_, ?_⟩
  · rw [List.map_map]
    exact ks.lives_nodup
  · intro m
    rw [List.mem_map]
    constructor
    · rintro ⟨e, he, rfl⟩
      exact Keyspace.mem_lives.mp he
    · rintro h
      exact ⟨(m.key, m.ts, m.value), Keyspace.mem_lives.mpr h, rfl⟩

namespace Engine

/-- The invariants of the engine beside a checkpoint. -/
structure Steady (s : Engine ρ) : Prop where
  timely : s.Timely
  reflected : s.Reflected
  placed : s.core.Placed
  flushless : s.Flushless
  counted : s.Counted
  trails : s.Trails

theorem Steady.step
    {s s' : Engine ρ} {act : Act ρ} (h : s.Steady) (hok : s.NoFlush act) (hst : Step s act s') :
    s'.Steady where
  timely := h.timely.step (h.flushless.ordinary hok) hst
  reflected := h.reflected.step h.timely (h.flushless.ordinary hok) hst
  placed := placed_step h.placed hst
  flushless := h.flushless.step hok hst
  counted := h.counted.step hst
  trails := h.trails.step h.timely h.flushless hok hst

/-- The log is not part of the invariants. -/
theorem Steady.rotate {s : Engine ρ} (h : s.Steady) (wal : Wal) : { s with wal := wal }.Steady where
  timely := h.timely.congr rfl rfl rfl rfl le_rfl h.timely.clock_lt
  reflected := ⟨h.reflected.chains, h.reflected.bound⟩
  placed := h.placed
  flushless := ⟨h.flushless.queue, h.flushless.batch, h.flushless.mode⟩
  counted := h.counted.congr rfl rfl rfl
  trails :=
    { bound := h.trails.bound
      applying := h.trails.applying
      old := fun hsync =>
        ⟨(h.trails.old hsync).chains, (h.trails.old hsync).phase, (h.trails.old hsync).history⟩
      reached := ⟨h.trails.reached.chains, h.trails.reached.phase, h.trails.reached.history⟩ }

theorem steady_start (o : Opened) (sync_writes : Bool) :
    (start o.appended sync_writes : Engine ρ).Steady := by
  have hold : (start o.appended sync_writes : Engine ρ).Old o.core.visible_ts := by
    refine ⟨?_, by simp [start, busy, Phase.Old], by simp [start]⟩
    intro k c hc v hv
    have hk := o.reflects k
    rw [show o.core.chain k = some c from hc] at hk
    obtain ⟨x, hx⟩ := hk.latest_ts
    exact (hk.version_le hv).trans (o.bound k _ hx)
  exact
    { timely := timely_start o.appended sync_writes
      reflected := reflected_start o.appended sync_writes
      placed := o.placed
      flushless := ⟨by simp [start], by simp [start, Phase.batch], fun _ => ⟨rfl, rfl⟩⟩
      counted := ⟨List.nodup_nil, by simp [start, openTxns]⟩
      trails :=
        { bound := Nat.le_max_left _ _
          applying := by simp [start, busy]
          old := fun _ => hold
          reached := hold.mono (Nat.le_max_left _ _) } }

/-- The snapshot is not behind the log; it waits only for commits that are in the log. -/
structure Ahead (t : Nat) (s : Engine ρ) : Prop where
  le : t ≤ s.core.last_appended
  waits : s.core.visible_ts < t → s.core.last_appended ≤ t ∧ s.sync_writes = true

theorem Ahead.step
    {s s' : Engine ρ} {t : Nat} {act : Act ρ} (h : Ahead t s) (hs : s.Steady)
    (hok : s.NoFlush act) (hst : Step s act s') :
    Ahead t s' where
  le := h.le.trans (last_appended_mono hst)
  waits := by
    intro hlt
    obtain ⟨hlast, hsync⟩ := h.waits (lt_of_le_of_lt (visible_ts_mono hst) hlt)
    refine ⟨?_, (sync_writes_step hst).trans hsync⟩
    rcases busy_step hs.timely (hs.flushless.ordinary hok) hst with ⟨hnot, _⟩ |
      ⟨a, io, rfl, hw, hbusy, _⟩
    · rw [(sameTrail_of_not_work hst hnot).last_appended]
      exact hlast
    · rcases works_trail hw with ⟨hsame, _⟩ | ⟨j, wal, core, result, hp, _, _, _⟩ |
        ⟨j, effect, _, hsame, _⟩
      · rw [hsame.last_appended]
        exact hlast
      · -- nothing is logged before what is in the log is published
        have hbound := hs.trails.bound
        have hle := h.le
        have hvis := visible_ts_mono hst
        rw [hbusy, hp] at hbound
        simp only [Phase.loggedTs] at hbound
        omega
      · rw [hsame]
        exact hlast

/-- While the snapshot waits, only commits up to it are applied. -/
theorem Ahead.locksOld
    {s : Engine ρ} {t : Nat} (h : Ahead t s) (hs : s.Steady) (hlt : s.core.visible_ts < t)
    (act : Act ρ) :
    s.LocksOld t act := by
  obtain ⟨hlast, hsync⟩ := h.waits hlt
  intro a io j next _ hp m hm _
  have hj := hs.trails.applying hsync j next none
    (by rw [hs.timely.busy_eq (a := a) (by simp [hp]), hp]) m hm
  exact hj.trans hlast

theorem pins_step
    {s s' : Engine ρ} {act : Act ρ} (hst : Step s act s') (hnot : ∀ snap, act ≠ .unpin snap) :
    s.pins ⊆ s'.pins := by
  cases hst with
  | txnCommit _ _ hsub => cases hsub <;> exact List.Subset.refl _
  | submit hsub => cases hsub <;> exact List.Subset.refl _
  | dumpStart => exact List.subset_cons_self _ _
  | ckptPin _ => exact List.subset_cons_self _ _
  | unpin _ => exact absurd rfl (hnot _)
  | work hw =>
      rw [(works_registered hw).2.1]
      exact List.Subset.refl _
  | _ => exact List.Subset.refl _

end Engine

namespace Checkpointed

/-- No FLUSHALL is submitted. -/
def Quiet (_ : Checkpointed ρ) : CkptAct ρ → Prop
  | .engine act => ∀ bak, act ≠ .submit (.flush_all bak)
  | _ => True

/-- As `Quiet`; and no shard is locked for a commit newer than a snapshot that is read
but not registered.  In `SYNC=0` mode, where the log does not run ahead, the snapshot
is read before anything newer is applied. -/
def OnTime (w : Checkpointed ρ) : CkptAct ρ → Prop
  | .engine act =>
      (∀ bak, act ≠ .submit (.flush_all bak)) ∧
        ∀ snap, w.ckpt = .rotated snap → w.engine.LocksOld snap act
  | .rotate =>
      w.engine.sync_writes = true ∨
        (w.engine.core.visible_ts ≤ w.engine.core.last_appended ∧
          (w.engine.phase .direct).job = none)
  | _ => True

/-- Every finished checkpoint succeeded, and its file holds exactly the keys that were
live at its snapshot. -/
def Exact (w : Checkpointed ρ) : Prop :=
  ∀ e ∈ w.results, ∃ file, e.2 = .ok file ∧ Copies file (w.engine.keyspaceAt e.1)

/-- What holds while a checkpoint runs. -/
def Right (s : Engine ρ) : Ckpt → Prop
  | .idle => True
  | .rotated snap => s.Old snap ∧ s.Ahead snap
  | .waiting snap =>
      snap ∈ s.pins ∧ s.Ahead snap ∧ (s.core.visible_ts < snap → s.Old snap) ∧
        (snap ≤ s.core.visible_ts → s.KeptAt snap)
  | .counting snap p count =>
      snap ∈ s.pins ∧ s.KeptAt snap ∧ p.shard ≤ SHARD_COUNT ∧
        count = ((s.keyspaceAt snap).passed p).length
  | .writing snap count p written =>
      snap ∈ s.pins ∧ s.KeptAt snap ∧ p.shard ≤ SHARD_COUNT ∧
        count = (s.keyspaceAt snap).lives.length ∧
        written = ((s.keyspaceAt snap).passed p).map entryRecord

structure Inv (w : Checkpointed ρ) : Prop where
  steady : w.engine.Steady
  right : Right w.engine w.ckpt
  results : ∀ e ∈ w.results, e.1 ≤ w.engine.core.visible_ts ∧
    ∃ file, e.2 = .ok file ∧ Copies file (w.engine.keyspaceAt e.1)

/-- The other threads take one step of the engine and leave the checkpoint's snapshot
registered. -/
theorem other_cases
    {w w' : Checkpointed ρ} {act : Act ρ} (h : w.other act = some w') :
    ∃ s, Engine.Step w.engine act s ∧ w' = { w with engine := s } ∧
      ∀ snap ∈ w.ckpt.held, snap ∈ w.engine.pins → snap ∈ s.pins := by
  have hplain : ∀ act : Act ρ, (∀ snap, act ≠ .unpin snap) →
      (w.engine.step act).map (fun s => { w with engine := s }) = some w' →
      ∃ s, Engine.Step w.engine act s ∧ w' = { w with engine := s } ∧
        ∀ snap ∈ w.ckpt.held, snap ∈ w.engine.pins → snap ∈ s.pins := by
    intro act hnot hmap
    obtain ⟨s, hs, rfl⟩ := Option.map_eq_some_iff.mp hmap
    have hst := Engine.step_cases hs
    exact ⟨s, hst, rfl, fun snap _ hmem => Engine.pins_step hst hnot hmem⟩
  cases act with
  | ckptPin _ => cases h
  | unpin snap =>
      simp only [other] at h
      split at h
      · next hmem =>
          obtain ⟨s, hs, rfl⟩ := Option.map_eq_some_iff.mp h
          have hst : w.engine.step (.unpin snap) = some s := hs
          refine ⟨s, Engine.step_cases hst, rfl, ?_⟩
          intro snap' hheld hpin
          have hs' : s.pins = w.engine.pins.erase snap := by
            unfold Engine.unpin at hs
            split at hs
            · cases hs
              rfl
            · cases hs
          rw [hs']
          by_cases heq : snap' = snap
          · subst heq
            have hdiff : w.engine.pins.diff w.ckpt.held = w.engine.pins.erase snap' := by
              cases hck : w.ckpt <;> simp_all [Ckpt.held]
            exact hdiff ▸ hmem
          · exact (List.mem_erase_of_ne heq).mpr hpin
      · cases h
  | begin_ id => exact hplain _ (by simp) h
  | txnGet id key => exact hplain _ (by simp) h
  | txnPut id key value => exact hplain _ (by simp) h
  | txnCommit id => exact hplain _ (by simp) h
  | txnDrop id => exact hplain _ (by simp) h
  | dumpStart => exact hplain _ (by simp) h
  | now => exact hplain _ (by simp) h
  | submit r => exact hplain _ (by simp) h
  | drain => exact hplain _ (by simp) h
  | work a io => exact hplain _ (by simp) h

end Checkpointed
namespace Checkpointed

/-- What a registered snapshot shows does not move. -/
theorem kept_step
    {s s' : Engine ρ} {snap : Nat} {act : Act ρ} (hs : s.Steady) (hok : s.NoFlush act)
    (hpin : snap ∈ s.pins) (hkept : s.KeptAt snap) (hst : Engine.Step s act s') :
    s'.KeptAt snap ∧ s'.keyspaceAt snap = s.keyspaceAt snap :=
  ⟨hkept.step hs.timely hs.placed hs.flushless hok (hs.counted.registered hpin) hst,
    Engine.keyspaceAt_step hs.timely hkept.visible hst⟩

theorem Right.step
    {s s' : Engine ρ} {ckpt : Ckpt} {act : Act ρ} (h : Right s ckpt) (hs : s.Steady)
    (hok : s.NoFlush act) (hlock : ∀ snap, ckpt = .rotated snap → s.LocksOld snap act)
    (hst : Engine.Step s act s')
    (hpins : ∀ snap ∈ ckpt.held, snap ∈ s.pins → snap ∈ s'.pins) :
    Right s' ckpt := by
  cases ckpt with
  | idle => trivial
  | rotated snap =>
      obtain ⟨hold, hahead⟩ := h
      exact ⟨hold.step hs.timely hs.flushless hok (hlock snap rfl) hst,
        hahead.step hs hok hst⟩
  | waiting snap =>
      obtain ⟨hpin, hahead, hold, hkept⟩ := h
      have hs' := hs.step hok hst
      have hpin' := hpins snap (List.mem_singleton_self snap) hpin
      have hold' : s.core.visible_ts < snap → s'.Old snap := fun hlt =>
        (hold hlt).step hs.timely hs.flushless hok (hahead.locksOld hs hlt act) hst
      refine ⟨hpin', hahead.step hs hok hst, ?_, ?_⟩
      · intro hlt
        exact hold' (lt_of_le_of_lt (Engine.visible_ts_mono hst) hlt)
      · intro hle
        by_cases hlt : s.core.visible_ts < snap
        · exact .of_old (hold' hlt) hs'.timely hs'.flushless hs'.reflected hle
        · exact (kept_step hs hok hpin (hkept (Nat.le_of_not_lt hlt)) hst).1
  | counting snap p count =>
      obtain ⟨hpin, hkept, hshard, hcount⟩ := h
      obtain ⟨hkept', hat⟩ := kept_step hs hok hpin hkept hst
      exact ⟨hpins snap (List.mem_singleton_self snap) hpin, hkept', hshard, by rw [hat]; exact hcount⟩
  | writing snap count p written =>
      obtain ⟨hpin, hkept, hshard, hcount, hwritten⟩ := h
      obtain ⟨hkept', hat⟩ := kept_step hs hok hpin hkept hst
      exact ⟨hpins snap (List.mem_singleton_self snap) hpin, hkept', hshard,
        by rw [hat]; exact hcount, by rw [hat]; exact hwritten⟩

/-- Finished checkpoints keep their snapshots. -/
theorem results_step
    {s s' : Engine ρ} {act : Act ρ} (hs : s.Steady) (hst : Engine.Step s act s')
    {results : List (Nat × Except IoError Bytes)}
    (h : ∀ e ∈ results, e.1 ≤ s.core.visible_ts ∧
      ∃ file, e.2 = .ok file ∧ Copies file (s.keyspaceAt e.1)) :
    ∀ e ∈ results, e.1 ≤ s'.core.visible_ts ∧
      ∃ file, e.2 = .ok file ∧ Copies file (s'.keyspaceAt e.1) := by
  intro e he
  obtain ⟨hle, hfile⟩ := h e he
  refine ⟨hle.trans (Engine.visible_ts_mono hst), ?_⟩
  rw [Engine.keyspaceAt_step hs.timely hle hst]
  exact hfile

/-- At the rotation nothing newer than the snapshot has been applied. -/
theorem old_at_rotation
    {w : Checkpointed ρ} (hs : w.engine.Steady) (hok : w.OnTime .rotate) :
    w.engine.Old w.engine.core.last_appended ∧ w.engine.Ahead w.engine.core.last_appended := by
  rcases hok with hsync | ⟨hvis, hjob⟩
  · exact ⟨hs.trails.old hsync, le_rfl, fun _ => ⟨le_rfl, hsync⟩⟩
  · cases hsync : w.engine.sync_writes with
    | true => exact ⟨hs.trails.old hsync, le_rfl, fun _ => ⟨le_rfl, hsync⟩⟩
    | false =>
        obtain ⟨hidle, _⟩ := hs.flushless.mode hsync
        have hbusy : w.engine.busy = w.engine.phase .direct :=
          Engine.busy_eq (a := .direct) hidle
        have hlogged : w.engine.busy.loggedTs = 0 := by
          rw [hbusy]
          cases hp : w.engine.phase .direct <;> simp_all [Phase.loggedTs, Phase.job]
        have hreached := hs.trails.reached
        have hbound := hs.trails.bound
        rw [hlogged, Nat.max_zero] at hreached hbound
        exact ⟨hreached.mono hvis, le_rfl, fun hlt => absurd hlt (by omega)⟩

theorem chunkAt_eq
    {w : Checkpointed ρ} {p : Place} {chunk : List (Key × Chain)}
    (h : w.chunkAt p = some chunk) :
    ∃ i : Fin SHARD_COUNT, p.shard = i ∧ chunk = (w.engine.core.shards i).chunk p := by
  unfold chunkAt at h
  split at h
  · next hlt =>
      split at h
      · cases h
        exact ⟨⟨p.shard, hlt⟩, rfl, rfl⟩
      · cases h
  · cases h

theorem next_shard_le (p : Place) (chunk : List (Key × Chain)) :
    (p.next chunk).shard ≤ p.shard + 1 := by
  unfold Place.next
  split <;> simp

theorem Inv.step
    {w w' : Checkpointed ρ} {act : CkptAct ρ} (h : w.Inv) (hok : w.OnTime act)
    (hst : w.step act = some w') :
    w'.Inv := by
  have hright := h.right
  cases act with
  | engine act =>
      obtain ⟨s, hs, rfl, hpins⟩ := other_cases hst
      exact
        { steady := h.steady.step hok.1 hs
          right := hright.step h.steady hok.1 hok.2 hs hpins
          results := results_step h.steady hs h.results }
  | rotate =>
      simp only [Checkpointed.step, Checkpointed.rotate] at hst
      split at hst
      · next hck hsync =>
          cases hst
          obtain ⟨hold, hahead⟩ := old_at_rotation h.steady hok
          exact
            { steady := h.steady.rotate _
              right := ⟨⟨hold.chains, hold.phase, hold.history⟩, ⟨hahead.le, hahead.waits⟩⟩
              results := h.results }
      · cases hst
  | register =>
      simp only [Checkpointed.step] at hst
      split at hst
      · next snap hck =>
          cases hst
          rw [hck] at hright
          obtain ⟨hold, hahead⟩ := hright
          have hpin : Engine.Step w.engine (.ckptPin snap) (w.engine.pin snap) := .ckptPin hahead.le
          have hok' : w.engine.NoFlush (.ckptPin snap) := by simp [Engine.NoFlush]
          have hsteady := h.steady.step hok' hpin
          have hold' : (w.engine.pin snap).Old snap := ⟨hold.chains, hold.phase, hold.history⟩
          exact
            { steady := hsteady
              right := ⟨List.mem_cons_self, hahead.step h.steady hok' hpin, fun _ => hold',
                fun hle => .of_old hold' hsteady.timely hsteady.flushless hsteady.reflected hle⟩
              results := results_step h.steady hpin h.results }
      · cases hst
  | published =>
      simp only [Checkpointed.step] at hst
      split at hst
      · next snap hck =>
          split at hst
          · cases hst
          · next hle =>
              cases hst
              rw [hck] at hright
              obtain ⟨hpin, _, _, hkept⟩ := hright
              exact
                { steady := h.steady
                  right := ⟨hpin, hkept (Nat.le_of_not_lt hle), Nat.zero_le _, by simp⟩
                  results := h.results }
      · cases hst
  | chunk =>
      simp only [Checkpointed.step] at hst
      split at hst
      · next snap p count hck =>
          obtain ⟨chunk, hchunk, rfl⟩ := Option.map_eq_some_iff.mp hst
          obtain ⟨i, hi, rfl⟩ := chunkAt_eq hchunk
          rw [hck] at hright
          obtain ⟨hpin, hkept, _, hcount⟩ := hright
          refine ⟨h.steady, ⟨hpin, hkept, ?_, ?_⟩, h.results⟩
          · have := next_shard_le p ((w.engine.core.shards i).chunk p)
            omega
          · rw [passed_next hkept.shows h.steady.placed hi, List.length_append, hcount,
              countChunk_eq]
      · next snap count p written hck =>
          obtain ⟨chunk, hchunk, rfl⟩ := Option.map_eq_some_iff.mp hst
          obtain ⟨i, hi, rfl⟩ := chunkAt_eq hchunk
          rw [hck] at hright
          obtain ⟨hpin, hkept, _, hcount, hwritten⟩ := hright
          refine ⟨h.steady, ⟨hpin, hkept, ?_, hcount, ?_⟩, h.results⟩
          · have := next_shard_le p ((w.engine.core.shards i).chunk p)
            omega
          · rw [passed_next hkept.shows h.steady.placed hi, List.map_append, hwritten]
      · cases hst
  | counted =>
      simp only [Checkpointed.step] at hst
      split at hst
      · next snap p count hck =>
          split at hst
          · cases hst
          · next hend =>
              cases hst
              rw [hck] at hright
              obtain ⟨hpin, hkept, hshard, hcount⟩ := hright
              refine ⟨h.steady, ⟨hpin, hkept, Nat.zero_le _, ?_, by simp⟩, h.results⟩
              rw [hcount, Keyspace.passed_end (by omega)]
      · cases hst
  | finish =>
      simp only [Checkpointed.step] at hst
      split at hst
      · next snap count p written hck =>
          split at hst
          · cases hst
          · next hend =>
              obtain ⟨s, hs, rfl⟩ := Option.map_eq_some_iff.mp hst
              have hst : w.engine.step (.unpin snap) = some s := hs
              have hunpin : Engine.Step w.engine (.unpin snap) s := Engine.step_cases hst
              have hok' : w.engine.NoFlush (.unpin snap) := by simp [Engine.NoFlush]
              rw [hck] at hright
              obtain ⟨hpin, hkept, hshard, hcount, hwritten⟩ := hright
              rw [Keyspace.passed_end (by omega)] at hwritten
              have hres := results_step h.steady hunpin h.results
              refine ⟨h.steady.step hok' hunpin, trivial, ?_⟩
              intro e he
              rcases List.mem_append.mp he with he | he
              · exact hres e he
              · rw [List.mem_singleton.mp he]
                obtain ⟨hkept', hat⟩ := kept_step h.steady hok' hpin hkept hunpin
                refine ⟨hkept'.visible, checkpointFile count written, ?_, ?_⟩
                · rw [outcome, if_pos (by rw [hwritten, hcount, List.length_map])]
                · rw [hat, hcount, hwritten]
                  exact copies_lives _
      · cases hst

/-- Checkpoints are exact in every run where no newer commit is applied between the
rotation and the registration, in both modes. -/
theorem checkpoints_exact
    (o : Opened) (sync_writes : Bool) {w : Checkpointed ρ}
    (h : Run step OnTime (start o sync_writes) w) :
    w.Exact := by
  have hstart : (start o sync_writes : Checkpointed ρ).Inv :=
    ⟨Engine.steady_start o sync_writes, trivial, by simp [start]⟩
  have hinv := h.invariant (P := Inv) (fun _ _ _ hi hok hst => hi.step hok hst) hstart
  exact fun e he => (hinv.results e he).2

/-! ### Runs with one key -/

/-- A commit that writes one key, and the flusher takes it. -/
def oneKey (v : Value) : List (CkptAct Unit) :=
  [.engine (.submit (.write ((∅ : ValueMap).insert [0x6b] v))), .engine .drain]

def works (n : Nat) : List (CkptAct Unit) := (Engine.flusherWorks n).map .engine

/-- A test that only quiet steps pass. -/
def quietStep (_ : Checkpointed Unit) : CkptAct Unit → Bool
  | .engine (.submit (.flush_all _)) => false
  | _ => true

theorem quiet_of_quietStep
    {w : Checkpointed Unit} {act : CkptAct Unit} (h : w.quietStep act = true) :
    w.Quiet act := by
  cases act with
  | engine act =>
      rintro bak rfl
      cases h
  | _ => trivial

/-- A test that only steps in time pass: nothing else happens before the registration. -/
def onTimeStep (w : Checkpointed Unit) : CkptAct Unit → Bool
  | .engine act =>
      w.quietStep (.engine act) && match w.ckpt with
        | .rotated _ => false
        | _ => true
  | .rotate => w.engine.sync_writes
  | _ => true

theorem onTime_of_onTimeStep
    {w : Checkpointed Unit} {act : CkptAct Unit} (h : w.onTimeStep act = true) :
    w.OnTime act := by
  cases act with
  | engine act =>
      rw [onTimeStep, Bool.and_eq_true] at h
      refine ⟨quiet_of_quietStep h.1, ?_⟩
      intro snap hck
      rw [hck] at h
      cases h.2
  | rotate => exact Or.inl h
  | _ => trivial

/-- One key is written and copied. -/
def copiedInTime : List (CkptAct Unit) :=
  oneKey (.bytes []) ++ works 39 ++ [.rotate, .register, .published] ++ List.replicate 33 .chunk ++
    [.counted] ++ List.replicate 33 .chunk ++ [.finish]

/-- The key is deleted between the rotation and the registration, and a third commit starts
the sweep there, which goes on between the two passes. -/
def sweptInBetween : List (CkptAct Unit) :=
  oneKey (.bytes []) ++ works 39 ++ [.rotate] ++ oneKey .tombstone ++ works 39 ++
    oneKey (.bytes []) ++ works 2 ++ [.register, .published] ++ List.replicate 33 .chunk ++
    [.counted] ++ works 1 ++ List.replicate 32 .chunk ++ [.finish]

theorem checkpoints_exact_one :
    ∃ w : Checkpointed Unit, w.results.length = 1 ∧ w.Exact := by
  have hsome : (exec step onTimeStep (start Opened.fresh true) copiedInTime).any
      (fun w => w.results.length = 1) = true := by
    decide +kernel
  obtain ⟨hs, hlen⟩ := (Option.any_eq_true_iff_get _ _).mp hsome
  refine ⟨_, by simpa using hlen, checkpoints_exact Opened.fresh true
    (.of_exec (fun _ _ => onTime_of_onTimeStep) (Option.some_get hs).symm)⟩

/-- Is the only result the error of the two passes? -/
def failedOnce (w : Checkpointed Unit) : Bool :=
  match w.results with
  | [(1, .error .snapshotChanged)] => true
  | _ => false

/-- A quiet run in which the two passes of a checkpoint disagree. -/
theorem swept_between_the_passes :
    ∃ w : Checkpointed Unit, Run step Quiet (start Opened.fresh true) w ∧
      w.results = [(1, .error .snapshotChanged)] ∧ ¬ w.Exact := by
  have hsome : (exec step quietStep (start Opened.fresh true) sweptInBetween).any
      failedOnce = true := by
    decide +kernel
  obtain ⟨hs, hfail⟩ := (Option.any_eq_true_iff_get _ _).mp hsome
  have hresults : ((exec step quietStep (start Opened.fresh true) sweptInBetween).get hs).results =
      [(1, .error .snapshotChanged)] := by
    generalize (exec step quietStep (start Opened.fresh true) sweptInBetween).get hs = w at hfail
    unfold failedOnce at hfail
    split at hfail
    · next heq => exact heq
    · cases hfail
  refine ⟨_, .of_exec (fun _ _ => quiet_of_quietStep) (Option.some_get hs).symm, hresults, ?_⟩
  intro hexact
  obtain ⟨file, hfile, _⟩ := hexact (1, .error .snapshotChanged) (by rw [hresults]; simp)
  cases hfile

end Checkpointed
end Checkpoints
end StrikeDB
