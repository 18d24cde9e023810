import StrikeDB.ReplicationInv

/-!
# StrikeDB: replication converges

* `Tracks`: what holds of the link of a replica at each stage.
* `Inv.step`: every orderly step keeps it.
* `replica_converges`: a replica that has read everything holds what the primary
  holds.
-/

namespace StrikeDB
namespace Repl

variable {ρ : Type}

/-- The copy of a replica that has read everything on the socket. -/
def Link.copy (l : Link) : Copy := l.replica.copy.read l.wire

def Tracks (e : Engine ρ) (due : List Frame) (l : Link) : Prop :=
  match l.serving with
  | .registering | .registered => l.copy.vals = (fun _ => none) ∧ Replays e (l.queue ++ due)
  | .dumping snap next =>
      snap ≤ e.core.visible_ts ∧ (∀ k, next ≤ (shard_of k).val → l.copy.vals k = none) ∧
        Follows e snap next ((l.queue ++ due).filter (Frame.above snap)) l.copy.vals
  | .streaming snap =>
      snap ≤ e.core.visible_ts ∧ l.copy.batch = [] ∧
        Follows e snap SHARD_COUNT ((l.queue ++ due).filter (Frame.above snap)) l.copy.vals

/-- What holds of the primary itself. -/
structure PrimaryInv (s : Replication ρ) : Prop where
  timely : s.eng.Timely
  reflected : s.eng.Reflected
  placed : s.eng.core.Placed
  plain : s.eng.DirectPlain
  calling : s.hooks ≠ [] → ∃ j effect, s.eng.phase .flusher = .publishing j effect
  late : s.late.flatten.filter (Frame.unpublished s.eng.core.visible_ts) = []
  due : Replays s.eng s.due ∧ Recent s.eng s.due

structure Inv (s : Replication ρ) : Prop extends PrimaryInv s where
  inactive : s.active = false → ∀ l ∈ s.links, l.serving = .registering ∧ l.queue = []
  tracks : ∀ l ∈ s.links, Tracks s.eng s.due l ∧ Recent s.eng (l.queue ++ s.due)

theorem PrimaryInv.withLinks
    {s : Replication ρ} (h : PrimaryInv s) {links : List Link} {active : Bool}
    (hinactive : active = false → ∀ l ∈ links, l.serving = .registering ∧ l.queue = [])
    (htracks : ∀ l ∈ links, Tracks s.eng s.due l ∧ Recent s.eng (l.queue ++ s.due)) :
    Inv { s with links := links, active := active } :=
  { timely := h.timely
    reflected := h.reflected
    placed := h.placed
    plain := h.plain
    calling := h.calling
    late := h.late
    due := h.due
    inactive := hinactive
    tracks := htracks }

/-! ## The primary goes on -/

theorem Tracks.tells
    {e e' : Engine ρ} {new due : List Frame} {l : Link} (h : Tracks e due l)
    (ht : e.Tells e' new) (hle : e.core.visible_ts ≤ e'.core.visible_ts) :
    Tracks e' (due ++ new) l := by
  have hfilter : ∀ snap, snap ≤ e.core.visible_ts →
      (l.queue ++ (due ++ new)).filter (Frame.above snap) =
        (l.queue ++ due).filter (Frame.above snap) ++ new := by
    intro snap hsnap
    rw [← List.append_assoc, List.filter_append, calls_above ht hsnap]
  unfold Tracks at h ⊢
  split at h
  · exact ⟨h.1, by rw [← List.append_assoc]; exact h.2.tells ht⟩
  · exact ⟨h.1, by rw [← List.append_assoc]; exact h.2.tells ht⟩
  · next snap next _ =>
      refine ⟨h.1.trans hle, h.2.1, ?_⟩
      rw [hfilter snap h.1]
      exact h.2.2.tells ht
  · next snap _ =>
      refine ⟨h.1.trans hle, h.2.1, ?_⟩
      rw [hfilter snap h.1]
      exact h.2.2.tells ht

theorem directCalls_cases (p : Phase ρ) :
    directCalls p = [] ∨ ∃ j, p = .publishing j .applied ∧ directCalls p = [Job.calls j] := by
  unfold directCalls
  split
  · next j => exact Or.inr ⟨j, rfl, rfl⟩
  · exact Or.inl rfl

/-- What the calls that are due rest on. -/
structure Callers (s : Replication ρ) : Prop where
  timely : s.eng.Timely
  plain : s.eng.DirectPlain
  calling : s.hooks ≠ [] → ∃ j effect, s.eng.phase .flusher = .publishing j effect
  late : s.late.flatten.filter (Frame.unpublished s.eng.core.visible_ts) = []

theorem PrimaryInv.callers {s : Replication ρ} (h : PrimaryInv s) : Callers s :=
  ⟨h.timely, h.plain, h.calling, h.late⟩

/-- A step of the engine that makes the calls `new` due. -/
structure Advances (s s' : Replication ρ) (act : Act ρ) (new : List Frame) : Prop where
  step : Engine.Step s.eng act s'.eng
  links : s'.links = s.links
  active : s'.active = s.active
  due : s'.due = s.due ++ new
  tells : s.eng.Tells s'.eng new
  events : s.eng.EventStep s'.eng new
  flushes : Frame.flush ∈ new → ∃ io, act = .work .flusher io
  base : s'.eng.base = s.eng.base
  calling : s'.eng.calling =
    (s.eng.calling ++ new).filter (Frame.unpublished s'.eng.core.visible_ts)
  hooks : s'.hooks ≠ [] → ∃ j effect, s'.eng.phase .flusher = .publishing j effect
  late : s'.late.flatten.filter (Frame.unpublished s'.eng.core.visible_ts) = []

theorem Inv.advance
    {s s' : Replication ρ} {act : Act ρ} {new : List Frame} (h : Inv s) (hok : s.eng.Ordinary act)
    (ha : Advances s s' act new) :
    Inv s' := by
  have hle := Engine.visible_ts_mono ha.step
  exact
    { timely := h.timely.step hok ha.step
      reflected := h.reflected.step h.timely hok ha.step
      placed := Engine.placed_step h.placed ha.step
      plain := Engine.directPlain_step h.plain ha.step
      calling := ha.hooks
      late := ha.late
      due := by rw [ha.due]; exact ⟨h.due.1.tells ha.tells, h.due.2.step hle ha.calling⟩
      inactive := by rw [ha.active, ha.links]; exact h.inactive
      tracks := by
        rw [ha.links, ha.due]
        intro l hl
        obtain ⟨htracks, hrecent⟩ := h.tracks l hl
        refine ⟨htracks.tells ha.tells hle, ?_⟩
        rw [← List.append_assoc]
        exact hrecent.step hle ha.calling }

/-- What is published stays so. -/
theorem unpublished_nil
    {fs : List Frame} {v v' : Nat} (hle : v ≤ v') (h : fs.filter (Frame.unpublished v) = []) :
    fs.filter (Frame.unpublished v') = [] := by
  rw [List.filter_eq_nil_iff] at h ⊢
  intro f hf hun
  refine h f hf ?_
  cases f with
  | mutation m =>
      simp only [Frame.unpublished, decide_eq_true_eq] at hun ⊢
      omega
  | flush => exact hun

/-- A step of a client in the engine. -/
theorem Callers.client
    {s : Replication ρ} {act : Act ρ} {e : Engine ρ} (h : Callers s) (hok : s.eng.Ordinary act)
    (hclient : ∀ a io, act ≠ .work a io) (hst : s.eng.step act = some e) :
    Advances s { s with eng := e } act [] := by
  have hstep := Engine.step_cases hst
  refine
    { step := hstep
      links := rfl
      active := rfl
      due := (List.append_nil _).symm
      tells := Engine.tells_client h.timely hok hclient hstep
      events := .quiet (Engine.event_step_client hclient hstep).1
      flushes := by simp
      base := (Engine.event_step_client hclient hstep).2
      calling := ?_
      hooks := ?_
      late := unpublished_nil (Engine.visible_ts_mono hstep) h.late }
  · rw [List.append_nil]
    exact Engine.calling_client h.timely hclient hstep
  · intro hne
    obtain ⟨j, effect, hp⟩ := h.calling hne
    rcases Engine.flusher_client hclient hstep with heq | ⟨hidle, _⟩
    · exact ⟨j, effect, heq.trans hp⟩
    · rw [hp] at hidle
      cases hidle

theorem Callers.flusher
    {s : Replication ρ} {io : Io} {e : Engine ρ} (h : Callers s) (hnone : s.hooks = [])
    (hst : s.eng.work .flusher io = some e) :
    Advances s
      { s with eng := e, hooks := flusherCalls (s.eng.phase .flusher) (e.phase .flusher) }
      (.work .flusher io) (flusherCalls (s.eng.phase .flusher) (e.phase .flusher)) := by
  have hw := Engine.works_of_work hst
  refine
    { step := .work hw
      links := rfl
      active := rfl
      due := by simp [Replication.due, hnone]
      tells := Engine.tells_flusher h.timely hw
      events := Engine.event_step_flusher hw
      flushes := fun _ => ⟨io, rfl⟩
      base := Engine.base_works hw
      calling := Engine.calling_flusher h.timely hw
      hooks := ?_
      late := unpublished_nil (Engine.visible_ts_mono (.work hw)) h.late }
  intro hne
  simp only [flusherCalls] at hne
  split at hne
  · next heq => exact ⟨_, _, heq⟩
  · next heq => exact ⟨_, _, heq⟩
  · exact absurd rfl hne

theorem Callers.direct
    {s : Replication ρ} {io : Io} {e : Engine ρ} (h : Callers s)
    (hst : s.eng.work .direct io = some e) :
    Advances s { s with eng := e, late := s.late ++ directCalls (s.eng.phase .direct) }
      (.work .direct io) (directCalls (s.eng.phase .direct)).flatten := by
  have hw := Engine.works_of_work hst
  have hidle : s.eng.phase .flusher = .idle := by
    refine h.timely.other_idle (a := .direct) ?_
    intro hidle
    cases hw <;> simp_all
  -- the flusher waits for its calls, and it is idle
  have hnone : s.hooks = [] := by
    by_contra hne
    obtain ⟨j, effect, hp⟩ := h.calling hne
    rw [hp] at hidle
    cases hidle
  refine
    { step := .work hw
      links := rfl
      active := rfl
      due := by simp [Replication.due, hnone]
      tells := Engine.tells_direct h.timely h.plain hw
      events := Engine.event_step_direct h.timely h.plain hw
      flushes := by
        rcases directCalls_cases (s.eng.phase .direct) with hnil | ⟨j, _, heq⟩
        · rw [hnil]
          simp
        · rw [heq, List.flatten_singleton]
          exact fun hf => absurd hf (flush_not_mem_map _)
      base := Engine.base_works hw
      calling := Engine.calling_direct h.timely hw
      hooks := fun hne => absurd hnone hne
      late := ?_ }
  rw [List.flatten_append, List.filter_append,
    unpublished_nil (Engine.visible_ts_mono (.work hw)) h.late]
  exact Engine.direct_published h.timely hw

/-- Every step of the engine makes calls due, or none. -/
theorem Callers.engineStep
    {s s' : Replication ρ} {act : Act ρ} (h : Callers s) (hok : s.eng.Ordinary act)
    (hst : s.engineStep act = some s') :
    ∃ new, Advances s s' act new := by
  by_cases hclient : ∀ a io, act ≠ .work a io
  · have hplain : (s.eng.step act).map (fun e => { s with eng := e }) = some s' := by
      cases act with
      | work a io => exact absurd rfl (hclient a io)
      | _ => exact hst
    obtain ⟨e, he, rfl⟩ := Option.map_eq_some_iff.mp hplain
    exact ⟨[], h.client hok hclient he⟩
  · simp only [not_forall, not_not] at hclient
    obtain ⟨a, io, rfl⟩ := hclient
    cases a with
    | flusher =>
        simp only [Replication.engineStep] at hst
        split at hst
        · next hnone =>
            obtain ⟨e, he, rfl⟩ := Option.map_eq_some_iff.mp hst
            exact ⟨_, h.flusher hnone he⟩
        · cases hst
    | direct =>
        obtain ⟨e, he, rfl⟩ := Option.map_eq_some_iff.mp hst
        exact ⟨_, h.direct he⟩

theorem Inv.engineStep
    {s s' : Replication ρ} {act : Act ρ} (h : Inv s) (hok : s.eng.Ordinary act)
    (hst : s.engineStep act = some s') :
    Inv s' := by
  obtain ⟨new, ha⟩ := h.callers.engineStep hok hst
  exact h.advance hok ha

/-! ## Calls -/

/-- What a call moves: from the calls that are due to the queues. -/
structure Calls (s s₁ : Replication ρ) (f : Frame) (pre post : List Frame) : Prop where
  eng : s₁.eng = s.eng
  links : s₁.links = s.links
  active : s₁.active = s.active
  before : s.due = pre ++ f :: post
  after : s₁.due = pre ++ post
  free : ∀ f' ∈ pre, ¬ f.Conflicts f'
  recent : f.unpublished s.eng.core.visible_ts = false ∨
    pre.filter (Frame.unpublished s.eng.core.visible_ts) = []
  hooks : s₁.hooks ≠ [] → s.hooks ≠ []
  late : s₁.late.flatten.filter (Frame.unpublished s.eng.core.visible_ts) = []

theorem Tracks.call
    {e : Engine ρ} {f : Frame} {pre post : List Frame} {l : Link}
    (h : Tracks e (pre ++ f :: post) l) (hfree : ∀ f' ∈ pre, ¬ f.Conflicts f') :
    Tracks e (pre ++ post) { l with queue := l.queue ++ [f] } := by
  unfold Tracks at h ⊢
  cases hs : l.serving with
  | registering | registered =>
      rw [hs] at h
      exact ⟨h.1, h.2.same (same_swap_all hfree _ _)⟩
  | dumping snap next =>
      rw [hs] at h
      exact ⟨h.1, h.2.1, h.2.2.same (same_swap hfree _ _ _)⟩
  | streaming snap =>
      rw [hs] at h
      exact ⟨h.1, h.2.1, h.2.2.same (same_swap hfree _ _ _)⟩

theorem PrimaryInv.call
    {s s₁ : Replication ρ} {f : Frame} {pre post : List Frame} (h : PrimaryInv s)
    (hc : Calls s s₁ f pre post) :
    PrimaryInv s₁ := by
  obtain ⟨hreplays, hrecent⟩ := h.due
  rw [hc.before] at hreplays hrecent
  refine
    { timely := by rw [hc.eng]; exact h.timely
      reflected := by rw [hc.eng]; exact h.reflected
      placed := by rw [hc.eng]; exact h.placed
      plain := by rw [hc.eng]; exact h.plain
      calling := by rw [hc.eng]; exact fun hne => h.calling (hc.hooks hne)
      late := by rw [hc.eng]; exact hc.late
      due := ?_ }
  rw [hc.eng, hc.after]
  constructor
  · exact (hreplays.same (same_swap_all hc.free [] post)).tail
  · have hswap : Recent s.eng ([] ++ [f] ++ (pre ++ post)) := Recent.swap hrecent hc.recent
    exact hswap.suffix (List.suffix_append [f] (pre ++ post))

theorem Inv.broadcast
    {s s₁ : Replication ρ} {f : Frame} {pre post : List Frame} (h : Inv s)
    (hc : Calls s s₁ f pre post) :
    Inv (s₁.broadcast f) := by
  have hprimary := h.toPrimaryInv.call hc
  have hlink : ∀ l ∈ s₁.links,
      Tracks s₁.eng (pre ++ f :: post) l ∧ Recent s₁.eng (l.queue ++ (pre ++ f :: post)) := by
    intro l hl
    rw [hc.eng, ← hc.before]
    exact h.tracks l (hc.links ▸ hl)
  have hrecent : f.unpublished s₁.eng.core.visible_ts = false ∨
      pre.filter (Frame.unpublished s₁.eng.core.visible_ts) = [] := by
    rw [hc.eng]
    exact hc.recent
  unfold Replication.broadcast
  by_cases hactive : s₁.active = true
  · rw [if_pos hactive]
    refine hprimary.withLinks ?_ ?_
    · intro hnone l hl
      simp only [Bool.not_eq_eq_eq_not, Bool.not_false, List.isEmpty_iff] at hnone
      rw [hnone] at hl
      cases hl
    · intro l' hl'
      obtain ⟨l, hl, rfl⟩ := List.mem_map.mp hl'
      obtain ⟨htracks, hrec⟩ := hlink l (List.mem_of_mem_filter hl)
      rw [hc.after]
      exact ⟨htracks.call hc.free, hrec.swap hrecent⟩
  · rw [if_neg hactive]
    have hinactive : ∀ l ∈ s₁.links, l.serving = .registering ∧ l.queue = [] := by
      rw [hc.links]
      exact h.inactive (by rw [← hc.active]; simpa using hactive)
    refine hprimary.withLinks (fun _ => hinactive) ?_
    intro l hl
    obtain ⟨hserving, hqueue⟩ := hinactive l hl
    obtain ⟨htracks, hrec⟩ := hlink l hl
    rw [hqueue] at hrec
    have hswap : Recent s₁.eng ([] ++ [f] ++ (pre ++ post)) := Recent.swap hrec hrecent
    -- the frame is not sent, and this replica does not need it
    rw [Tracks, hserving, hqueue] at htracks ⊢
    rw [hc.after]
    exact ⟨⟨htracks.1, (htracks.2.same (same_swap_all hc.free [] post)).tail⟩,
      hswap.suffix (List.suffix_append [f] (pre ++ post))⟩

/-- The flusher's next call, before which no call of another client is due that
it conflicts with. -/
theorem Inv.call
    {s s' : Replication ρ} (h : Inv s)
    (hfree : ∀ f ∈ s.hooks.head?, ∀ f' ∈ s.late.flatten, ¬ f.Conflicts f')
    (hst : s.call = some s') :
    Inv s' := by
  unfold Replication.call at hst
  split at hst
  · cases hst
  · next f rest hhooks =>
      cases hst
      refine @Inv.broadcast ρ s { s with hooks := rest } f s.late.flatten rest h
        { eng := rfl
          links := rfl
          active := rfl
          before := by rw [Replication.due, hhooks]
          after := rfl
          free := hfree f (by rw [hhooks]; rfl)
          recent := Or.inr h.late
          hooks := fun _ => by rw [hhooks]; simp
          late := h.late }

theorem flatten_set
    {late : List (List Frame)} {i : Nat} {f : Frame} {rest : List Frame}
    (h : late[i]? = some (f :: rest)) :
    late.flatten = (late.take i).flatten ++ f :: (rest ++ (late.drop (i + 1)).flatten) ∧
      (late.set i rest).flatten = (late.take i).flatten ++ (rest ++ (late.drop (i + 1)).flatten) := by
  obtain ⟨hlt, hget⟩ := List.getElem?_eq_some_iff.mp h
  constructor
  · have hsplit : late = late.take i ++ late[i] :: late.drop (i + 1) := by
      rw [List.cons_getElem_drop_succ, List.take_append_drop]
    rw [hget] at hsplit
    conv_lhs => rw [hsplit]
    simp
  · rw [List.set_eq_take_append_cons_drop, if_pos hlt]
    simp

theorem Inv.callLate
    {s s' : Replication ρ} {i : Nat} (h : Inv s)
    (hfree : ∀ f ∈ (s.late[i]?.getD []).head?, ∀ f' ∈ (s.late.take i).flatten,
      ¬ f.Conflicts f')
    (hst : s.callLate i = some s') :
    Inv s' := by
  unfold Replication.callLate at hst
  split at hst
  · next f rest hlate =>
      cases hst
      obtain ⟨hbefore, hafter⟩ := flatten_set hlate
      have hpublished := h.late
      rw [hbefore, List.filter_append, List.append_eq_nil_iff, List.filter_cons] at hpublished
      have hf : f.unpublished s.eng.core.visible_ts = false := by
        by_contra hne
        rw [Bool.not_eq_false] at hne
        rw [if_pos hne] at hpublished
        cases hpublished.2
      rw [hf] at hpublished
      refine @Inv.broadcast ρ s { s with late := s.late.set i rest } f (s.late.take i).flatten
        (rest ++ (s.late.drop (i + 1)).flatten ++ s.hooks) h
        { eng := rfl
          links := rfl
          active := rfl
          before := by rw [Replication.due, hbefore]; simp
          after := by
            rw [Replication.due, hafter]
            simp
          free := hfree f (by rw [hlate]; rfl)
          recent := Or.inl hf
          hooks := id
          late := by
            rw [hafter, List.filter_append, hpublished.1]
            exact hpublished.2 }
  · cases hst

/-! ## Connections -/

theorem link_mem {s : Replication ρ} {id : Nat} {l : Link} (h : s.link id = some l) :
    l ∈ s.links :=
  List.mem_of_find?_eq_some h

theorem onLink_cases
    {s s' : Replication ρ} {id : Nat} {f : Link → Option Link} (h : s.onLink id f = some s') :
    ∃ l l', l ∈ s.links ∧ s.link id = some l ∧ f l = some l' ∧ s' = s.setLink l' := by
  obtain ⟨l, hl, hmap⟩ := Option.bind_eq_some_iff.mp h
  obtain ⟨l', hl', rfl⟩ := Option.map_eq_some_iff.mp hmap
  exact ⟨l, l', link_mem hl, hl, hl', rfl⟩

/-- One link has changed. -/
theorem Inv.setLink
    {s : Replication ρ} {l : Link} (h : Inv s)
    (hinactive : s.active = false → l.serving = .registering ∧ l.queue = [])
    (htracks : Tracks s.eng s.due l ∧ Recent s.eng (l.queue ++ s.due)) :
    Inv (s.setLink l) := by
  have hmem : ∀ x ∈ s.links.map (fun l' => if l'.id = l.id then l else l'),
      x = l ∨ x ∈ s.links := by
    intro x hx
    obtain ⟨l', hl', rfl⟩ := List.mem_map.mp hx
    by_cases hid : l'.id = l.id
    · exact Or.inl (if_pos hid)
    · exact Or.inr (by rw [if_neg hid]; exact hl')
  refine h.toPrimaryInv.withLinks ?_ ?_
  · intro hactive x hx
    rcases hmem x hx with rfl | hx
    · exact hinactive hactive
    · exact h.inactive hactive x hx
  · intro x hx
    rcases hmem x hx with rfl | hx
    · exact htracks
    · exact h.tracks x hx

/-- A replica that starts a full sync holds nothing. -/
theorem copy_resync (r : Replica) : r.resync.copy.vals = fun _ => none := by
  funext k
  simp [Replica.resync, Replica.wipe_local, Replica.copy, Copy.vals, putAll, Keyspace.value]

theorem Inv.register
    {s s' : Replication ρ} {id : Nat} {old : Replica} (h : Inv s)
    (hst : s.register id old = some s') :
    Inv s' := by
  unfold Replication.register at hst
  split at hst
  · cases hst
  · cases hst
    refine @PrimaryInv.withLinks ρ s h.toPrimaryInv _ s.active ?_ ?_
    · intro hactive l hl
      rcases List.mem_cons.mp hl with rfl | hl
      · exact ⟨rfl, rfl⟩
      · exact h.inactive hactive l hl
    · intro l hl
      rcases List.mem_cons.mp hl with rfl | hl
      · exact ⟨⟨copy_resync old, h.due.1⟩, h.due.2⟩
      · exact h.tracks l hl

theorem Inv.activate
    {s s' : Replication ρ} {id : Nat} (h : Inv s) (hst : s.activate id = some s') :
    Inv s' := by
  obtain ⟨s₁, hs₁, rfl⟩ := Option.map_eq_some_iff.mp hst
  obtain ⟨l, l', hmem, -, hlink, rfl⟩ := onLink_cases hs₁
  by_cases hserving : l.serving = .registering
  · rw [if_pos hserving, Option.some.injEq] at hlink
    have htracks := h.tracks l hmem
    have htracks' : Tracks s.eng s.due l' ∧ Recent s.eng (l'.queue ++ s.due) := by
      rw [Tracks, hserving] at htracks
      rw [← hlink]
      exact htracks
    have hactive : Inv { s with active := true } :=
      h.toPrimaryInv.withLinks (by simp) h.tracks
    exact hactive.setLink (by simp) htracks'
  · rw [if_neg hserving] at hlink
    cases hlink

theorem Inv.drop
    {s s' : Replication ρ} {id : Nat} (h : Inv s) (hst : s.drop id = some s') :
    Inv s' := by
  unfold Replication.drop at hst
  split at hst
  · cases hst
  · cases hst
    refine h.toPrimaryInv.withLinks ?_ fun l hl => h.tracks l (List.mem_of_mem_filter hl)
    intro hnone l hl
    simp only [Bool.not_eq_eq_eq_not, Bool.not_false, List.isEmpty_iff] at hnone
    rw [hnone] at hl
    cases hl

/-- While the hub is inactive, no replica is served. -/
theorem Inv.served
    {s : Replication ρ} {l : Link} (h : Inv s) (hl : l ∈ s.links)
    (hserving : l.serving ≠ .registering) {P : Prop} :
    s.active = false → P := by
  intro hactive
  exact absurd (h.inactive hactive l hl).1 hserving

theorem Inv.pin
    {s s' : Replication ρ} {id : Nat} (h : Inv s)
    (hclean : ∀ l, s.link id = some l → PinClean s.eng (l.queue ++ s.due))
    (hst : s.pin id = some s') :
    Inv s' := by
  have hadvance : Advances s { s with eng := s.eng.pin s.eng.core.visible_ts } .dumpStart [] :=
    h.callers.client trivial (by simp) rfl
  have heng : Inv { s with eng := s.eng.pin s.eng.core.visible_ts } := h.advance (by trivial) hadvance
  obtain ⟨l, l', hmem, hl, hlink, rfl⟩ := onLink_cases hst
  by_cases hserving : l.serving = .registered
  · rw [if_pos hserving, Option.some.injEq] at hlink
    obtain ⟨htracks, hrecent⟩ := h.tracks l hmem
    rw [Tracks, hserving] at htracks
    have hfollows := htracks.2.pin hrecent h.reflected h.timely (hclean l hl) l.copy.vals
    have htells : s.eng.Tells (s.eng.pin s.eng.core.visible_ts) [] := .quiet rfl fun _ h => h
    refine heng.setLink (h.served hmem (by rw [hserving]; simp)) ?_
    rw [← hlink]
    refine ⟨⟨le_rfl, fun k _ => congrFun htracks.1 k, ?_⟩, hrecent⟩
    have hpinned := hfollows.tells htells
    rwa [List.append_nil] at hpinned
  · rw [if_neg hserving] at hlink
    cases hlink

/-- A dump shows every key of a shard as the snapshot does. -/
theorem page_vals
    {core : FlushCore} (hplaced : core.Placed) (i : Fin SHARD_COUNT) (snap : Nat) (vals : Vals)
    (hnone : ∀ k, shard_of k = i → vals k = none) (k : Key) :
    putAll vals ((Replication.page core i snap).map fun m => (m.key, m.value)) k =
      if shard_of k = i then core.get_at k snap else vals k := by
  have hentry : ∀ kv ∈ (Replication.page core i snap).map fun m => (m.key, m.value),
      ∃ c : Chain, (core.shards i)[kv.1]? = some c ∧ c.visible snap = some kv.2 := by
    intro kv hkv
    obtain ⟨m, hm, rfl⟩ := List.mem_map.mp hkv
    obtain ⟨e, he, hmap⟩ := List.mem_filterMap.mp hm
    obtain ⟨v, hv, rfl⟩ := Option.map_eq_some_iff.mp hmap
    exact ⟨e.2, Std.ExtTreeMap.mem_toList_iff_getElem?_eq_some.mp he, hv⟩
  by_cases hk : shard_of k = i
  · rw [if_pos hk]
    by_cases hex : ∃ kv ∈ (Replication.page core i snap).map (fun m => (m.key, m.value)), kv.1 = k
    · refine putAll_of_mem ?_ hex vals
      intro kv hkv hkey
      obtain ⟨c, hc, hv⟩ := hentry kv hkv
      rw [FlushCore.get_at, FlushCore.chain, hk, ← hkey, hc, Option.bind_some, hv]
      exact Chain.live_visible hv
    · rw [putAll_of_not_mem fun kv hkv hkey => hex ⟨kv, hkv, hkey⟩, hnone k hk, eq_comm,
        FlushCore.get_at, FlushCore.chain, hk, Option.bind_eq_none_iff]
      intro c hc
      by_contra hv
      obtain ⟨v, hv⟩ := Option.ne_none_iff_exists'.mp hv
      have hc' := Std.ExtTreeMap.mem_toList_iff_getElem?_eq_some.mpr hc
      have hm : ({ key := k, value := v
                   ts := ((c.visibleVersion snap).map Version.ts).getD 0 } : Mutation) ∈
          Replication.page core i snap :=
        List.mem_filterMap.mpr ⟨(k, c), hc', Option.map_eq_some_iff.mpr ⟨v, hv, rfl⟩⟩
      exact hex ⟨(k, v), List.mem_map.mpr ⟨_, hm, rfl⟩, rfl⟩
  · rw [if_neg hk]
    refine putAll_of_not_mem ?_ vals
    rintro kv hkv rfl
    obtain ⟨c, hc, _⟩ := hentry kv hkv
    exact hk (hplaced i kv.1 c hc).1

theorem Inv.dumpShard
    {s s' : Replication ρ} {id : Nat} (h : Inv s) (hst : s.dumpShard id = some s') :
    Inv s' := by
  obtain ⟨l, l', hmem, -, hlink, rfl⟩ := onLink_cases hst
  split at hlink
  · next snap next hserving =>
      split at hlink
      · next hlt =>
          by_cases hun : s.eng.unlocked next = true
          · rw [if_pos hun, Option.some.injEq] at hlink
            obtain ⟨htracks, hrecent⟩ := h.tracks l hmem
            rw [Tracks, hserving] at htracks
            obtain ⟨hle, hrest, hfollows⟩ := htracks
            have hcopy : l'.copy.vals = putAll l.copy.vals
                ((Replication.page s.eng.core ⟨next, hlt⟩ snap).map fun m => (m.key, m.value)) := by
              rw [← hlink, Link.copy, Copy.read_append, Copy.vals_read_snaps]
              rfl
            have hvals := page_vals h.placed ⟨next, hlt⟩ snap l.copy.vals
              fun k hk => hrest k (by rw [hk])
            have hother : ∀ k, (shard_of k).val ≠ next → l'.copy.vals k = l.copy.vals k := by
              intro k hk
              rw [hcopy, hvals, if_neg fun heq => hk (by rw [heq])]
            have hdumped := hfollows.dump l'.copy.vals h.reflected h.timely h.plain
              (fun k hk => by rw [hcopy, hvals, if_pos (Fin.ext hk)])
              (fun k hlt => hother k hlt.ne)
            refine h.setLink ?_ ?_
            · exact h.served hmem (by rw [hserving]; simp)
            · have hkeep : ∀ k, next + 1 ≤ (shard_of k).val → l'.copy.vals k = none := by
                intro k hk
                rw [hother k (by omega)]
                exact hrest k (by omega)
              rw [← hlink] at hkeep hdumped ⊢
              exact ⟨⟨hle, hkeep, hdumped⟩, hrecent⟩
          · rw [if_neg hun] at hlink
            cases hlink
      · cases hlink
  · cases hlink

/-- Behind the dump, a replica follows as if the shards were all there are. -/
theorem Follows.done
    {e : Engine ρ} {snap next : Nat} {fs : List Frame} {vals : Vals}
    (h : Follows e snap next fs vals) (hle : SHARD_COUNT ≤ next) :
    Follows e snap SHARD_COUNT fs vals :=
  ⟨h.replays, fun k hk hw hlt => h.dumped k hk hw (hlt.trans_le hle),
    fun k _ _ hge => absurd (shard_of k).isLt (Nat.not_lt.mpr hge)⟩

theorem Inv.ready
    {s s' : Replication ρ} {id : Nat} (h : Inv s) (hst : s.ready id = some s') :
    Inv s' := by
  unfold Replication.ready at hst
  split at hst
  · next l hl =>
      have hmem := link_mem hl
      split at hst
      · next snap next hserving =>
          split at hst
          · next hge =>
              split at hst
              · cases hst
              · next e he =>
                  cases hst
                  have hadvance : Advances s { s with eng := e } (.unpin snap) [] :=
                    h.callers.client trivial (by simp) he
                  have heng : Inv { s with eng := e } := h.advance (by trivial) hadvance
                  obtain ⟨htracks, hrecent⟩ := heng.tracks l hmem
                  rw [Tracks, hserving] at htracks
                  obtain ⟨hle, _, hfollows⟩ := htracks
                  refine heng.setLink (h.served hmem (by rw [hserving]; simp)) ?_
                  have hcopy : ∀ l' : Link, l'.wire = l.wire ++ [Wire.ready snap] →
                      l'.replica = l.replica →
                      l'.copy.batch = [] ∧ l'.copy.vals = l.copy.vals := by
                    intro l' hwire hreplica
                    rw [Link.copy, hwire, hreplica, Copy.read_append]
                    exact ⟨rfl, Copy.vals_take_ready _ snap⟩
                  set l' : Link :=
                    { l with serving := .streaming snap, wire := l.wire ++ [Wire.ready snap] }
                  obtain ⟨hbatch, hvals⟩ := hcopy l' rfl rfl
                  refine ⟨⟨hle, hbatch, ?_⟩, hrecent⟩
                  rw [hvals]
                  exact hfollows.done hge
          · cases hst
      · cases hst
  · cases hst

/-- Of the queue, only frames behind the dump are written. -/
theorem read_forward
    (c : Copy) (hbatch : c.batch = []) (snap : Nat) (f : Frame) :
    (c.read (Replication.forward snap f)).batch = [] ∧
      (c.read (Replication.forward snap f)).vals =
        if f.above snap = true then f.on c.vals else c.vals := by
  have hvals : ∀ c : Copy, c.batch = [] → c.vals = c.stored := by
    intro c hc
    rw [Copy.vals, hc]
    rfl
  cases f with
  | mutation m =>
      by_cases hm : m.ts > snap
      · have hforward : Replication.forward snap (.mutation m) = [.mutation m] := if_pos hm
        have habove : (Frame.mutation m).above snap = true := decide_eq_true hm
        rw [hforward, if_pos habove, hvals c hbatch]
        exact ⟨hbatch, hvals _ hbatch⟩
      · have hforward : Replication.forward snap (.mutation m) = [] := if_neg hm
        have habove : ¬ (Frame.mutation m).above snap = true := by simpa [Frame.above] using hm
        rw [hforward, if_neg habove]
        exact ⟨hbatch, rfl⟩
  | flush => exact ⟨hbatch, hvals _ hbatch⟩

theorem Inv.stream
    {s s' : Replication ρ} {id : Nat} (h : Inv s) (hst : s.stream id = some s') :
    Inv s' := by
  obtain ⟨l, l', hmem, -, hlink, rfl⟩ := onLink_cases hst
  split at hlink
  · next snap f rest hserving hqueue =>
      rw [Option.some.injEq] at hlink
      obtain ⟨htracks, hrecent⟩ := h.tracks l hmem
      rw [Tracks, hserving, hqueue] at htracks
      rw [hqueue] at hrecent
      obtain ⟨hle, hbatch, hfollows⟩ := htracks
      obtain ⟨hbatch', hvals'⟩ := read_forward l.copy hbatch snap f
      have hcopy : l'.copy = l.copy.read (Replication.forward snap f) := by
        rw [← hlink, Link.copy, Copy.read_append]
        rfl
      refine h.setLink (h.served hmem (by rw [hserving]; simp)) ?_
      have hrest : Follows s.eng snap SHARD_COUNT ((rest ++ s.due).filter (Frame.above snap))
          l'.copy.vals := by
        rw [hcopy, hvals']
        by_cases habove : f.above snap = true
        · rw [List.cons_append, List.filter_cons_of_pos habove] at hfollows
          rw [if_pos habove]
          exact hfollows.stream
        · rw [List.cons_append, List.filter_cons_of_neg habove] at hfollows
          rw [if_neg habove]
          exact hfollows
      rw [← hcopy] at hbatch'
      rw [← hlink] at hbatch' hrest ⊢
      refine ⟨?_, hrecent.suffix (List.suffix_cons f _)⟩
      rw [Tracks]
      simp only [hserving]
      exact ⟨hle, hbatch', hrest⟩
  · cases hlink

/-- A step that leaves the queue alone and the copy as it was. -/
theorem Inv.sameCopy
    {s : Replication ρ} {l l' : Link} (h : Inv s) (hmem : l ∈ s.links)
    (hserving : l'.serving = l.serving) (hqueue : l'.queue = l.queue) (hcopy : l'.copy = l.copy) :
    Inv (s.setLink l') := by
  refine h.setLink ?_ ?_
  · intro hactive
    rw [hserving, hqueue]
    exact h.inactive hactive l hmem
  · have htracks := h.tracks l hmem
    rw [Tracks] at htracks ⊢
    rw [hserving, hqueue, hcopy]
    exact htracks

theorem Inv.ping
    {s s' : Replication ρ} {id : Nat} (h : Inv s) (hst : s.ping id = some s') :
    Inv s' := by
  obtain ⟨l, l', hmem, -, hlink, rfl⟩ := onLink_cases hst
  split at hlink
  · rw [Option.some.injEq] at hlink
    refine h.sameCopy hmem (by rw [← hlink]) (by rw [← hlink]) ?_
    rw [← hlink, Link.copy, Copy.read_append]
    rfl
  · cases hlink

theorem Inv.ack
    {s s' : Replication ρ} {id : Nat} (h : Inv s) (hst : s.ack id = some s') :
    Inv s' := by
  obtain ⟨l, l', hmem, -, hlink, rfl⟩ := onLink_cases hst
  split at hlink
  · rw [Option.some.injEq] at hlink
    exact h.sameCopy hmem (by rw [← hlink]) (by rw [← hlink]) (by rw [← hlink]; rfl)
  · cases hlink

/-- A replica reads: what it holds once it has read everything stays the same. -/
theorem takeControl_copy (l : Link) (f : Wire) (w : List Wire) :
    (Replication.takeControl l f w).copy = l.replica.copy.read (f :: w) := by
  rw [Replication.takeControl, Link.copy, Replica.copy_takeFrame]
  rfl

theorem controlFrame_cases
    {b : Bool} {w w' : List Wire} {f : Wire} (h : Replication.controlFrame b w = some (f, w')) :
    w = f :: w' := by
  unfold Replication.controlFrame at h
  split at h
  · cases h
  · cases h; rfl
  · cases h

theorem takeMuts_copy (l : Link) (m : Mutation) (w : List Wire) (n : Nat) (control : Bool) :
    (Replication.takeMuts l m w n control).copy = l.replica.copy.read (.mutation m :: w) := by
  have hmuts : (l.replica.apply_muts (m :: (leadingMuts (min n (BATCH - 1)) w).1)).copy.read
      (leadingMuts (min n (BATCH - 1)) w).2 = l.replica.copy.read (.mutation m :: w) := by
    rw [Replica.copy_apply_muts, ← Copy.read_append, List.map_cons, List.cons_append,
      leadingMuts_append]
  rw [← hmuts]
  simp only [Replication.takeMuts]
  split
  · next f w' hcontrol =>
      rw [controlFrame_cases hcontrol]
      exact takeControl_copy _ f w'
  · rfl

theorem Inv.consume
    {s s' : Replication ρ} {id n : Nat} {control : Bool} (h : Inv s)
    (hst : s.consume id n control = some s') :
    Inv s' := by
  obtain ⟨l, l', hmem, -, hlink, rfl⟩ := onLink_cases hst
  have hmuts : ∀ m w, (Replication.takeMuts l m w n control).serving = l.serving ∧
      (Replication.takeMuts l m w n control).queue = l.queue := by
    intro m w
    simp only [Replication.takeMuts]
    split <;> exact ⟨rfl, rfl⟩
  split at hlink
  · cases hlink
  · next m w hwire =>
      rw [Option.some.injEq] at hlink
      refine h.sameCopy hmem ?_ ?_ ?_ <;> rw [← hlink]
      · exact (hmuts m w).1
      · exact (hmuts m w).2
      · rw [takeMuts_copy, Link.copy, hwire]
  · next f w _ hwire =>
      rw [Option.some.injEq] at hlink
      refine h.sameCopy hmem ?_ ?_ ?_ <;> rw [← hlink]
      · rfl
      · rfl
      · rw [takeControl_copy, Link.copy, hwire]

/-- The snapshot of the dump of a link. -/
def Serving.snapshot : Serving → Nat
  | .dumping snap _ | .streaming snap => snap
  | _ => 0

/-- The link after its replica has deleted keys. -/
def Link.deleting (l : Link) (keys : List Key) : Link :=
  { l with replica := l.replica.put_batch (keys.map fun k => (k, .tombstone)) }

/-- A purge of a replica does no harm: what it deletes is deleted on the primary, or is
decided by a frame that the replica has yet to read. -/
def PurgeClean (e : Engine ρ) (due : List Frame) (l : Link) (keys : List Key) : Prop :=
  ∀ k ∈ keys, e.told.value k = none ∨ (l.deleting keys).copy.vals k = l.copy.vals k ∨
    ∃ f ∈ (l.queue ++ due).filter (Frame.above l.serving.snapshot), f.Writes k

theorem deleting_copy (l : Link) (keys : List Key) :
    (l.deleting keys).replica.copy =
      { l.replica.copy with
        stored := putAll l.replica.copy.stored (keys.map fun k => (k, .tombstone)) } := by
  have hvalue : (l.deleting keys).replica.ks.value =
      putAll l.replica.ks.value (keys.map fun k => (k, .tombstone)) :=
    Replica.value_put_batch _ _
  rw [Replica.copy, hvalue]
  rfl

theorem deleting_batch (l : Link) (keys : List Key) :
    (l.deleting keys).copy.batch = l.copy.batch := by
  refine Copy.batch_read ?_ _
  rw [deleting_copy]

theorem deleting_lost (l : Link) (keys : List Key) (k : Key) :
    (l.deleting keys).copy.vals k = l.copy.vals k ∨
      k ∈ keys ∧ (l.deleting keys).copy.vals k = none := by
  have hbatch : (l.deleting keys).replica.copy.batch = l.replica.copy.batch := by
    rw [deleting_copy]
  by_cases hk : k ∈ keys
  · have hnone : (l.deleting keys).replica.copy.stored k = none := by
      rw [deleting_copy]
      refine putAll_of_mem (v := none) ?_ ⟨(k, .tombstone), List.mem_map.mpr ⟨k, hk, rfl⟩, rfl⟩ _
      intro kv hkv _
      obtain ⟨k', _, rfl⟩ := List.mem_map.mp hkv
      rfl
    rcases Copy.vals_read_lost hbatch (Or.inr hnone) l.wire with heq | hlost
    · exact Or.inl heq
    · exact Or.inr ⟨hk, hlost⟩
  · have hsame : (l.deleting keys).replica.copy.stored k = l.replica.copy.stored k := by
      rw [deleting_copy]
      refine putAll_of_not_mem ?_ _
      intro kv hkv heq
      obtain ⟨k', hk', rfl⟩ := List.mem_map.mp hkv
      have hkey : k' = k := heq
      exact hk (hkey ▸ hk')
    exact Or.inl (Copy.vals_read_congr hbatch hsame l.wire)

theorem Tracks.deleting
    {e : Engine ρ} {due : List Frame} {l : Link} {keys : List Key} (h : Tracks e due l)
    (hclean : PurgeClean e due l keys) :
    Tracks e due (l.deleting keys) := by
  have hlose : ∀ {snap next : Nat}, l.serving.snapshot = snap →
      Follows e snap next ((l.queue ++ due).filter (Frame.above snap)) l.copy.vals →
      Follows e snap next ((l.queue ++ due).filter (Frame.above snap))
        (l.deleting keys).copy.vals := by
    intro snap next hsnap hf
    refine hf.lose ?_
    intro k
    rcases deleting_lost l keys k with heq | ⟨hk, hnone⟩
    · exact Or.inl heq
    · rcases hclean k hk with htold | heq | hw
      · exact Or.inr (Or.inl ⟨htold, hnone⟩)
      · exact Or.inl heq
      · rw [hsnap] at hw
        exact Or.inr (Or.inr hw)
  have hempty : ∀ k, l.copy.vals k = none → (l.deleting keys).copy.vals k = none := by
    intro k hk
    rcases deleting_lost l keys k with heq | ⟨_, hnone⟩
    · exact heq.trans hk
    · exact hnone
  unfold Tracks at h ⊢
  have hserving : (l.deleting keys).serving = l.serving := rfl
  rw [hserving]
  cases hs : l.serving with
  | registering | registered =>
      rw [hs] at h
      refine ⟨?_, h.2⟩
      funext k
      exact hempty k (congrFun h.1 k)
  | dumping snap next =>
      rw [hs] at h
      exact ⟨h.1, fun k hle => hempty k (h.2.1 k hle), hlose (by rw [hs]; rfl) h.2.2⟩
  | streaming snap =>
      rw [hs] at h
      exact ⟨h.1, (deleting_batch l keys).trans h.2.1, hlose (by rw [hs]; rfl) h.2.2⟩

theorem Inv.purge
    {s s' : Replication ρ} {id now : Nat} {user : Bytes} (h : Inv s)
    (hclean : ∀ l, s.link id = some l →
      PurgeClean s.eng s.due l (expiredKeys l.replica.ks now user))
    (hst : s.purge id now user = some s') :
    Inv s' := by
  obtain ⟨l, l', hmem, hl, hlink, rfl⟩ := onLink_cases hst
  have hl' : l' = l.deleting (expiredKeys l.replica.ks now user) := by
    split at hlink
    · cases hlink
    · exact (Option.some.inj hlink).symm
  obtain ⟨htracks, hrecent⟩ := h.tracks l hmem
  rw [hl']
  exact h.setLink (h.inactive · l hmem) ⟨htracks.deleting (hclean l hl), hrecent⟩

/-! ## Runs -/

/-- The condition on the steps of a run: the primary executes FLUSHALL apart from direct
commits; calls keep the commit order where it matters; dumps start at a good moment;
and replicas purge only what does not matter. -/
def Orderly (s : Replication ρ) : ReplAct ρ → Prop
  | .engine act => s.eng.Ordinary act
  | .call => ∀ f ∈ s.hooks.head?, ∀ f' ∈ s.late.flatten, ¬ f.Conflicts f'
  | .callLate i =>
      ∀ f ∈ (s.late[i]?.getD []).head?, ∀ f' ∈ (s.late.take i).flatten, ¬ f.Conflicts f'
  | .pin id => ∀ l, s.link id = some l → PinClean s.eng (l.queue ++ s.due)
  | .purge id now user => ∀ l, s.link id = some l →
      PurgeClean s.eng s.due l (expiredKeys l.replica.ks now user)
  | _ => True

theorem Inv.step
    {s s' : Replication ρ} {act : ReplAct ρ} (h : Inv s) (hok : Orderly s act)
    (hst : s.step act = some s') :
    Inv s' := by
  cases act with
  | engine act => exact h.engineStep hok hst
  | call => exact h.call hok hst
  | callLate i => exact h.callLate hok hst
  | register id old => exact h.register hst
  | activate id => exact h.activate hst
  | pin id => exact h.pin hok hst
  | dumpShard id => exact h.dumpShard hst
  | ready id => exact h.ready hst
  | stream id => exact h.stream hst
  | ping id => exact h.ping hst
  | consume id n control => exact h.consume hst
  | purge id now user => exact h.purge hok hst
  | ack id => exact h.ack hst
  | drop id => exact h.drop hst

theorem inv_start (o : Opened) (sync_writes : Bool) :
    Inv (Replication.start o sync_writes : Replication ρ) where
  timely := Engine.timely_start o sync_writes
  reflected := Engine.reflected_start o sync_writes
  placed := o.placed
  plain := by intro pw hpw; cases hpw
  calling := fun hne => absurd rfl hne
  late := rfl
  due := ⟨fun k _ hw => by simp [Replication.start, Replication.due] at hw, List.nil_suffix⟩
  inactive := by intro _ l hl; cases hl
  tracks := by intro l hl; cases hl

/-- The replica has read every frame there is for it. -/
structure CaughtUp (s : Replication ρ) (l : Link) : Prop where
  streaming : ∃ snap, l.serving = .streaming snap
  queue : l.queue = []
  wire : l.wire = []
  due : s.due = []

/-- A replica that has read every frame holds, at every key that no batch is at work on,
what the primary holds. -/
theorem replica_converges
    (o : Opened) (sync_writes : Bool) (s : Replication ρ)
    (hrun : Run Replication.step Orderly (Replication.start o sync_writes) s)
    (l : Link) (hl : l ∈ s.links) (hup : CaughtUp s l) (k : Key) (hk : ¬ s.eng.Unsettled k) :
    l.replica.ks.value k = s.eng.core.latestValue k := by
  have h : Inv s :=
    hrun.invariant (fun _ _ _ h hok hst => h.step hok hst) (inv_start o sync_writes)
  obtain ⟨snap, hserving⟩ := hup.streaming
  obtain ⟨htracks, _⟩ := h.tracks l hl
  rw [Tracks, hserving, hup.queue, hup.due] at htracks
  obtain ⟨_, hbatch, hfollows⟩ := htracks
  have hcopy : l.copy = l.replica.copy := by rw [Link.copy, hup.wire]; rfl
  rw [hcopy] at hbatch hfollows
  have hvals : l.replica.copy.vals = l.replica.ks.value := by
    rw [Copy.vals, hbatch]
    rfl
  have htold := hfollows.dumped k hk (by simp) (shard_of k).isLt
  rw [hvals] at htold
  rw [htold, FlushCore.latestValue, (h.reflected.told h.timely h.plain hk).value]
  rfl

/-! ## Runs that diverge -/

def Replica.empty : Replica := { ks := ∅, clock := 0, batch := [], max_ts := 0, applied := 0 }

/-- No thread works on a batch. -/
def quiet (s : Replication ρ) : Bool :=
  match s.eng.phase .flusher, s.eng.phase .direct with
  | .idle, .idle => true
  | _, _ => false

theorem not_unsettled_of_quiet {s : Replication ρ} (h : quiet s = true) (k : Key) :
    ¬ s.eng.Unsettled k := by
  unfold quiet at h
  split at h
  · next hf hd =>
      rintro ⟨a, ha⟩
      cases a with
      | flusher => rw [hf] at ha; exact ha
      | direct => rw [hd] at ha; exact ha
  · cases h

/-- Has a replica read everything? -/
def caughtUp (s : Replication ρ) (l : Link) : Bool :=
  (match l.serving with
    | .streaming _ => true
    | _ => false) && l.queue.isEmpty && l.wire.isEmpty && s.due.isEmpty

theorem caughtUp_iff {s : Replication ρ} {l : Link} (h : caughtUp s l = true) : CaughtUp s l := by
  unfold caughtUp at h
  rw [Bool.and_eq_true, Bool.and_eq_true, Bool.and_eq_true, List.isEmpty_iff, List.isEmpty_iff,
    List.isEmpty_iff] at h
  obtain ⟨⟨⟨hserving, hqueue⟩, hwire⟩, hdue⟩ := h
  refine ⟨?_, hqueue, hwire, hdue⟩
  cases hs : l.serving with
  | streaming snap => exact ⟨snap, rfl⟩
  | _ => simp [hs] at hserving

/-- A test that only orderly steps pass. -/
def orderlyStep (s : Replication ρ) : ReplAct ρ → Bool
  | .engine act => s.eng.ordinaryStep act
  | .call => s.late.flatten.isEmpty
  | .callLate _ => false
  | .pin _ => quiet s && s.due.isEmpty && s.links.all fun l => l.queue.isEmpty
  | .purge .. => false
  | _ => true

theorem orderly_of_orderlyStep
    {s : Replication ρ} {act : ReplAct ρ} (h : orderlyStep s act = true) :
    Orderly s act := by
  cases act with
  | engine act => exact Engine.ordinary_of_ordinaryStep h
  | call =>
      intro f _ f' hf'
      rw [List.isEmpty_iff.mp h] at hf'
      cases hf'
  | callLate i => cases h
  | pin id =>
      simp only [orderlyStep, Bool.and_eq_true, List.all_eq_true] at h
      obtain ⟨⟨hquiet, hdue⟩, hqueues⟩ := h
      intro l hl
      rw [List.isEmpty_iff.mp hdue, List.isEmpty_iff.mp (hqueues l (link_mem hl))]
      constructor
      · intro pre m post heq
        simp at heq
      · intro j hp
        simp [quiet, hp] at hquiet
  | purge id now user => cases h
  | _ => trivial

/-- A replica has read everything, no batch is in work, and yet it differs. -/
def Diverges (s : Replication ρ) : Prop :=
  ∃ l ∈ s.links, CaughtUp s l ∧ ∃ k, ¬ s.eng.Unsettled k ∧
    l.replica.ks.value k ≠ s.eng.core.latestValue k

def divergesAt (k : Key) (s : Replication ρ) : Bool :=
  quiet s && s.links.any fun l =>
    caughtUp s l && decide (l.replica.ks.value k ≠ s.eng.core.latestValue k)

theorem diverges_of_exec
    {o : Opened} {sync_writes : Bool} (k : Key) (acts : List (ReplAct ρ))
    (h : (exec Replication.step (fun _ _ => true) (Replication.start o sync_writes) acts).any
      (divergesAt k) = true) :
    ∃ s : Replication ρ,
      Run Replication.step (fun _ _ => True) (Replication.start o sync_writes) s ∧ Diverges s := by
  obtain ⟨hs, hdiv⟩ := (Option.any_eq_true_iff_get _ _).mp h
  simp only [divergesAt, Bool.and_eq_true, List.any_eq_true, decide_eq_true_eq] at hdiv
  obtain ⟨hquiet, l, hl, hup, hne⟩ := hdiv
  exact ⟨_, .of_exec (fun _ _ _ => trivial) (Option.some_get hs).symm, l, hl, caughtUp_iff hup, k,
    not_unsettled_of_quiet hquiet k, hne⟩

/-- A new replica gets a dump. -/
def fullSync : List (ReplAct ρ) :=
  [.pin 0] ++ List.replicate SHARD_COUNT (.dumpShard 0) ++ [.ready 0]

/-- The engine gets a request, and its thread works for `n` steps. -/
def request (r : Request Unit) (n : Nat) : List (ReplAct Unit) :=
  ([Act.submit r, Act.drain] ++ Engine.flusherWorks n).map .engine

def setRequest (n : Int64) : Request Unit :=
  .write (Std.ExtTreeMap.ofList [(([1] : Key), Value.int n)])

/-- A client that commits directly works for `n` steps. -/
def directWorks (n : Nat) : List (ReplAct ρ) :=
  List.replicate n (.engine (.work .direct { write := .done, syncOk := true, filesOk := true }))

/-- The flusher publishes its batch. -/
def publish : List (ReplAct ρ) := (Engine.flusherWorks 1).map .engine

/-- A replica that registers between the calls for a batch and its publication, and whose
dump starts before it, never gets the batch. -/
theorem commit_is_lost :
    ∃ s : Replication Unit,
      Run Replication.step (fun _ _ => True) (Replication.start Opened.fresh true) s ∧
        Diverges s := by
  refine diverges_of_exec [1] (request (setRequest 7) 38 ++
    [.call, .register 0 .empty, .activate 0] ++ fullSync ++ publish ++ [.consume 0 0 false]) ?_
  decide +kernel

/-- A FLUSHALL that is in the queue when the dump starts wipes commits that the dump contains:
their own frames are not written. -/
theorem dump_is_wiped :
    ∃ s : Replication Unit,
      Run Replication.step (fun _ _ => True) (Replication.start Opened.fresh true) s ∧
        Diverges s := by
  refine diverges_of_exec [1] ([.register 0 .empty, .activate 0] ++
    request (.flush_all "bak") 38 ++ [.call] ++ publish ++ request (setRequest 7) 38 ++ [.call] ++
    publish ++ fullSync ++ [.stream 0, .stream 0] ++ List.replicate 3 (.consume 0 0 false)) ?_
  decide +kernel

/-- In `SYNC=0` mode the calls for two commits of one key may change places. -/
theorem older_value_stays :
    ∃ s : Replication Unit,
      Run Replication.step (fun _ _ => True) (Replication.start Opened.fresh false) s ∧
        Diverges s := by
  refine diverges_of_exec [1] ([.register 0 .empty, .activate 0] ++ fullSync ++
    [.consume 0 0 false] ++
    [.engine (.submit (setRequest 1))] ++ directWorks 36 ++
    [.engine (.submit (setRequest 2))] ++ directWorks 36 ++
    [.callLate 1, .callLate 0, .stream 0, .stream 0, .consume 0 1 false]) ?_
  decide +kernel

/-- A replica gets a FLUSHALL and then a commit. -/
theorem replica_converges_after_flush :
    ∃ s : Replication Unit, ∃ l ∈ s.links, l.replica.ks.value [1] = some (.int 7) ∧
      l.replica.ks.value [1] = s.eng.core.latestValue [1] := by
  have hrun : (exec Replication.step orderlyStep (Replication.start Opened.fresh true)
      (request (setRequest 3) 38 ++ [.call] ++ publish ++ [.register 0 .empty, .activate 0] ++
        fullSync ++ request (.flush_all "bak") 38 ++ [.call] ++ publish ++
        request (setRequest 7) 38 ++ [.call] ++ publish ++ [.stream 0, .stream 0] ++
        List.replicate 4 (.consume 0 0 false))).any (fun s => quiet s && s.links.any fun l =>
          caughtUp s l && decide (l.replica.ks.value [1] = some (.int 7))) = true := by
    decide +kernel
  obtain ⟨hs, hprop⟩ := (Option.any_eq_true_iff_get _ _).mp hrun
  simp only [Bool.and_eq_true, List.any_eq_true, decide_eq_true_eq] at hprop
  obtain ⟨hquiet, l, hl, hup, hvalue⟩ := hprop
  exact ⟨_, l, hl, hvalue, replica_converges Opened.fresh true _
    (.of_exec (fun _ _ => orderly_of_orderlyStep) (Option.some_get hs).symm) l hl
    (caughtUp_iff hup) [1] (not_unsettled_of_quiet hquiet _)⟩

end Repl
end StrikeDB
