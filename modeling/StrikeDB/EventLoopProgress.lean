import StrikeDB.EventLoopRuns

/-!
# StrikeDB: the event loop serves every connection to its end

No input is left behind: whatever waits in the socket or in a buffer, the worker is about to look
at it, will be told of it, or waits for the client to take its output (`Lively`).

* `Lively.step`: every handled step keeps it so.
* `served_in_order`: the commands that are run, and the replies to them, are those of a sequential
  server, and when the client has closed and the server is quiet all of them were run.
* `closed_before_run`: a client that closes behind its last command, before the worker reads it.
-/

namespace StrikeDB
namespace EventLoop

open Resp (Command Fault ProtocolError Reads Stuck pushed readCommand parse_commands)

variable {σ κ : Type}

/-! ## What the worker is about to do -/

/-- The worker is on its way to write what is queued. -/
def Writing : List (Call κ) → Prop
  | .flush :: _ => True
  | .flushing _ :: _ => True
  | .process :: _ => True
  | .batch _ _ :: _ => True
  | _ => False

/-- A batch is running on the worker. -/
def Running : List (Call κ) → Prop
  | .batch _ _ :: _ => True
  | _ => False

/-- The worker ends a flush that may let a held up connection go on. -/
def Releasing : List (Call κ) → Prop
  | .flushing true :: _ => True
  | _ => False

/-- The worker is on its way to parse what is read. -/
def Parsing : List (Call κ) → Prop
  | .reading :: _ => True
  | .received :: _ => True
  | .process :: _ => True
  | _ => False

/-- The worker will read. -/
def Reading (calls : List (Call κ)) : Prop :=
  Call.readable ∈ calls ∨ Call.reading ∈ calls

/-- It has read, and more than it accepts. -/
def Flooded (c : Conn κ) : List (Call κ) → Prop
  | .received :: _ => QUERY_BUFFER_LIMIT < c.rbuf.length
  | _ => False

/-- Nothing waits for something that will not happen. -/
structure LivelyConn (s : State σ κ) (c : Conn κ) : Prop where
  wpos : c.wpos ≤ c.wbuf.length
  muted : c.muted = true → c.pending_out = 0 ∧ c.st = none ∧
    (s.job.isSome = true ∨ s.completed.isSome = true)
  output : 0 < c.pending_out → s.room = false ∨ s.armed = true ∨ Writing s.calls ∨
    (c.ready = true ∧ (Call.readable ∈ s.calls ∨ Parsing s.calls))
  input : s.unread ≠ [] ∨ s.shut = true → c.muted = true ∨ s.armed = true ∨ Reading s.calls ∨
    c.more_to_read = true ∨ Flooded c s.calls
  more : c.more_to_read = true → Call.readable ∈ s.calls ∨ Releasing s.calls ∨
    (c.ready = false ∧ ¬ Running s.calls)
  parsed : c.ready = true → readCommand c.rbuf = .more ∨ Call.readable ∈ s.calls ∨
    Parsing s.calls ∨ Releasing s.calls
  flushing : ∀ calls, s.calls = .flushing false :: calls → c.pending_out ≤ OUTPUT_HIGH_WATER

def Lively (s : State σ κ) : Prop :=
  ∀ c, s.conn = some c → c.close_after_flush = false → LivelyConn s c

section Calls

variable {ex : Executor σ κ} {s s' : State σ κ} {c c' : Conn κ} {call : Call κ}
  {calls : List (Call κ)}

attribute [local grind] State.push State.setConn Writing Running Releasing Parsing Reading Flooded
attribute [local grind =] ready_iff

theorem tail_cases (htail : ∀ call ∈ calls, call = .readable) :
    calls = [] ∨ ∃ rest, calls = .readable :: rest := by
  cases calls with
  | nil => exact .inl rfl
  | cons x rest =>
      obtain rfl := htail x List.mem_cons_self
      exact .inr ⟨rest, rfl⟩

theorem not_ready (h : c.st = none) : c.ready = false := by
  simp [Conn.ready, h]

/-- `flush` starts to write. -/
theorem LivelyConn.flush (h : LivelyConn s c) (hcalls : s.calls = .flush :: calls) :
    LivelyConn ({ s with calls := calls }.push
      (.flushing (decide (OUTPUT_HIGH_WATER < c.pending_out)))) c := by
  obtain ⟨hwpos, hmuted, houtput, hinput, hmore, hparsed, hflushing⟩ := h
  rw [hcalls] at houtput hinput hmore hparsed hflushing
  constructor <;> grind

/-- A part of the output is written. -/
theorem LivelyConn.written {was : Bool} {n : Nat} (h : LivelyConn s c)
    (hcalls : s.calls = .flushing was :: calls) (hn : n ≤ c.pending_out) :
    LivelyConn (({ s with calls := calls }.setConn { c with wpos := c.wpos + n }).push
      (.flushing was)) { c with wpos := c.wpos + n } := by
  obtain ⟨hwpos, hmuted, houtput, hinput, hmore, hparsed, hflushing⟩ := h
  rw [hcalls] at houtput hinput hmore hparsed hflushing
  rw [Conn.pending_out] at hn
  have hle : ({ c with wpos := c.wpos + n } : Conn κ).pending_out ≤ c.pending_out := by
    simp only [Conn.pending_out]
    omega
  have hready : was = false → ({ c with wpos := c.wpos + n } : Conn κ).ready = c.ready := by
    rintro rfl
    have hlow := hflushing calls rfl
    rw [Bool.eq_iff_iff, ready_iff, ready_iff]
    simp only [hlow, hle.trans hlow]
  constructor
  · change c.wpos + n ≤ c.wbuf.length
    omega
  · intro hm
    obtain ⟨hp, hst, hj⟩ := hmuted hm
    exact ⟨Nat.le_zero.mp (hp ▸ hle), hst, hj⟩
  · exact fun _ => .inr (.inr (.inl trivial))
  · exact hinput
  · cases was with
    | true => exact fun _ => .inr (.inl trivial)
    | false => grind
  · cases was with
    | true => exact fun _ => .inr (.inr (.inr trivial))
    | false => grind
  · intro rest hrest
    simp only [State.push, List.cons.injEq, Call.flushing.injEq] at hrest
    obtain ⟨rfl, rfl⟩ := hrest
    exact hle.trans (hflushing calls rfl)

/-- The end of `flush`, with what is not written left for the next one. -/
theorem LivelyConn.caughtUp {was : Bool} {room : Bool} (c' : Conn κ) (h : LivelyConn s c)
    (hcalls : s.calls = .flushing was :: calls) (htail : ∀ call ∈ calls, call = .readable)
    (hwpos' : c'.wpos ≤ c'.wbuf.length)
    (hc : c'.rbuf = c.rbuf ∧ c'.st = c.st ∧ c'.close_after_flush = c.close_after_flush ∧
      c'.more_to_read = c.more_to_read ∧ c'.muted = c.muted)
    (hle : c'.pending_out ≤ c.pending_out) (hroom : 0 < c'.pending_out → room = false) :
    ∀ c'', (Executor.caughtUp { s with calls := calls, room := room } c' was).conn = some c'' →
      LivelyConn (Executor.caughtUp { s with calls := calls, room := room } c' was) c'' := by
  intro c'' hc''
  have heq : c'' = c' := by
    unfold Executor.caughtUp at hc''
    split at hc''
    · exact (Option.some.inj hc'').symm
    · exact (Option.some.inj hc'').symm
  subst heq
  obtain ⟨hrbuf, hst', hclose, hmore', hmuted'⟩ := hc
  obtain ⟨hwpos, hmuted, houtput, hinput, hmore, hparsed, hflushing⟩ := h
  rw [hcalls] at houtput hinput hmore hparsed hflushing
  have hready : was = false → c''.ready = c.ready := by
    rintro rfl
    have hlow := hflushing calls rfl
    rw [Bool.eq_iff_iff, ready_iff, ready_iff, hst', hclose]
    simp only [hlow, hle.trans hlow]
  have hmute : c''.muted = true → c''.pending_out = 0 ∧ c''.st = none ∧
      (s.job.isSome = true ∨ s.completed.isSome = true) := by
    intro hm
    obtain ⟨hp, hst, hj⟩ := hmuted (hmuted' ▸ hm)
    exact ⟨Nat.le_zero.mp (hp ▸ hle), hst'.trans hst, hj⟩
  unfold Executor.caughtUp
  split
  · next hgo =>
      rw [Bool.and_eq_true] at hgo
      constructor
      · exact hwpos'
      · exact hmute
      · exact fun hp => .inl (hroom hp)
      · unfold Executor.resume
        split <;> grind
      · unfold Executor.resume
        split <;> grind
      · unfold Executor.resume
        split <;> grind
      · unfold Executor.resume
        split <;> grind
  · next hgo =>
      constructor
      · exact hwpos'
      · exact hmute
      · exact fun hp => .inl (hroom hp)
      · rcases tail_cases htail with rfl | ⟨rest, rfl⟩ <;> grind
      · rcases tail_cases htail with rfl | ⟨rest, rfl⟩ <;> cases was <;> grind
      · rcases tail_cases htail with rfl | ⟨rest, rfl⟩ <;> cases was <;> grind
      · rcases tail_cases htail with rfl | ⟨rest, rfl⟩ <;> grind

/-- The pool has the connection: read when it comes back. -/
theorem LivelyConn.parked (h : LivelyConn s c) (hcalls : s.calls = .readable :: calls)
    (htail : ∀ call ∈ calls, call = .readable) (hst : c.st = none) :
    LivelyConn ({ s with calls := calls }.setConn { c with more_to_read := true })
      { c with more_to_read := true } := by
  obtain ⟨hwpos, hmuted, houtput, hinput, hmore, hparsed, hflushing⟩ := h
  rw [hcalls] at houtput hinput hmore hparsed hflushing
  have hnot : ({ c with more_to_read := true } : Conn κ).ready = false := not_ready hst
  have hnot' : c.ready = false := not_ready hst
  have hpending : ({ c with more_to_read := true } : Conn κ).pending_out = c.pending_out := rfl
  rcases tail_cases htail with rfl | ⟨rest, rfl⟩ <;> constructor <;> grind

theorem LivelyConn.readable (h : LivelyConn s c) (hcalls : s.calls = .readable :: calls) :
    LivelyConn (({ s with calls := calls }.setConn { c with more_to_read := false }).push .reading)
      { c with more_to_read := false } := by
  obtain ⟨hwpos, hmuted, houtput, hinput, hmore, hparsed, hflushing⟩ := h
  rw [hcalls] at houtput hinput hmore hparsed hflushing
  have hready : ({ c with more_to_read := false } : Conn κ).ready = c.ready := rfl
  have hpending : ({ c with more_to_read := false } : Conn κ).pending_out = c.pending_out := rfl
  constructor <;> grind

/-- Enough is read for a connection that is held up. -/
theorem LivelyConn.paused (h : LivelyConn s c) (hcalls : s.calls = .reading :: calls)
    (hready : c.ready = false) :
    LivelyConn (({ s with calls := calls }.setConn { c with more_to_read := true }).push .received)
      { c with more_to_read := true } := by
  obtain ⟨hwpos, hmuted, houtput, hinput, hmore, hparsed, hflushing⟩ := h
  rw [hcalls] at houtput hinput hmore hparsed hflushing
  have hnot : ({ c with more_to_read := true } : Conn κ).ready = false := hready
  have hpending : ({ c with more_to_read := true } : Conn κ).pending_out = c.pending_out := rfl
  constructor <;> grind

theorem LivelyConn.read {n : Nat} (h : LivelyConn s c) (hcalls : s.calls = .reading :: calls) :
    LivelyConn (({ s with calls := calls, unread := s.unread.drop n }.setConn
        { c with rbuf := c.rbuf ++ s.unread.take n }).push
        (if QUERY_BUFFER_LIMIT < (c.rbuf ++ s.unread.take n).length then .received else .reading))
      { c with rbuf := c.rbuf ++ s.unread.take n } := by
  obtain ⟨hwpos, hmuted, houtput, hinput, hmore, hparsed, hflushing⟩ := h
  rw [hcalls] at houtput hinput hmore hparsed hflushing
  have hready : ({ c with rbuf := c.rbuf ++ s.unread.take n } : Conn κ).ready = c.ready := rfl
  have hpending : ({ c with rbuf := c.rbuf ++ s.unread.take n } : Conn κ).pending_out =
    c.pending_out := rfl
  split <;> constructor <;> grind

theorem LivelyConn.readAll (h : LivelyConn s c) (hcalls : s.calls = .reading :: calls)
    (hunread : s.unread = []) (hshut : s.shut = false) :
    LivelyConn ({ s with calls := calls }.push .received) c := by
  obtain ⟨hwpos, hmuted, houtput, hinput, hmore, hparsed, hflushing⟩ := h
  rw [hcalls] at houtput hinput hmore hparsed hflushing
  constructor <;> grind

theorem LivelyConn.received (h : LivelyConn s c) (hcalls : s.calls = .received :: calls)
    (htail : ∀ call ∈ calls, call = .readable) (hlimit : c.rbuf.length ≤ QUERY_BUFFER_LIMIT) :
    LivelyConn (if c.ready = true then { s with calls := calls }.push .process
      else { s with calls := calls }) c := by
  obtain ⟨hwpos, hmuted, houtput, hinput, hmore, hparsed, hflushing⟩ := h
  rw [hcalls] at houtput hinput hmore hparsed hflushing
  split
  · constructor <;> grind
  · rcases tail_cases htail with rfl | ⟨rest, rfl⟩ <;> constructor <;> grind

/-- A call of the worker that goes on with another, which will write or parse. -/
theorem LivelyConn.process (h : LivelyConn s c) (hcalls : s.calls = .process :: calls) :
    ∀ c', (ex.process { s with calls := calls } c).conn = some c' → s.conn = some c →
      c'.close_after_flush = false → LivelyConn (ex.process { s with calls := calls } c) c' := by
  intro c' hc' hconn hclose
  obtain ⟨hwpos, hmuted, houtput, hinput, hmore, hparsed, hflushing⟩ := h
  rw [hcalls] at houtput hinput hmore hparsed hflushing
  unfold Executor.process at hc' ⊢
  split at hc'
  · next st hst hready =>
      have hunmuted : c.muted = false := by
        rw [← Bool.not_eq_true]
        intro hm
        have hnone := (hmuted hm).2.1
        rw [hst] at hnone
        cases hnone
      simp only at hc' ⊢
      split at hc'
      · next f cursor hparse =>
          cases hc'
          cases hclose
      · next rest hparse =>
          cases hc'
          obtain ⟨_, _, _, hread⟩ := parse_ok hparse
          have hr := hread rfl
          have hready' : ({ c with rbuf := rest } : Conn κ).ready = c.ready := rfl
          have hpending : ({ c with rbuf := rest } : Conn κ).pending_out = c.pending_out := rfl
          constructor <;> grind
      · next cmds rest hne hparse =>
          split at hc'
          · next hinline =>
              cases hc'
              have hnot : ({ c with rbuf := rest, st := none } : Conn κ).ready = false :=
                not_ready rfl
              have hpending : ({ c with rbuf := rest, st := none } : Conn κ).pending_out =
                c.pending_out := rfl
              simp only [if_pos hinline]
              constructor <;> grind
          · next hinline =>
              cases hc'
              have hnot : ({ c with
                  rbuf := [], st := none,
                  muted := c.muted || decide (c.pending_out = 0) } : Conn κ).ready = false :=
                not_ready rfl
              have hpending : ({ c with
                  rbuf := [], st := none,
                  muted := c.muted || decide (c.pending_out = 0) } : Conn κ).pending_out =
                c.pending_out := rfl
              simp only [if_neg hinline]
              constructor
              · exact hwpos
              · intro hm
                rw [hunmuted, Bool.false_or, decide_eq_true_eq] at hm
                exact ⟨hm, rfl, .inl rfl⟩
              · grind
              · grind
              · grind
              · grind
              · grind
  · next hnot =>
      have hready : c.ready = false := by
        rw [← Bool.not_eq_true]
        intro hready
        obtain ⟨st, hst⟩ := Option.isSome_iff_exists.mp (ready_iff.mp hready).1
        exact hnot st hst hready
      have hcc : some c' = some c := hc'.symm.trans hconn
      cases hcc
      constructor <;> grind

/-- The batch on the worker is over, or a completion is there. -/
theorem LivelyConn.finish_batch {call' : Call κ} {ended : BatchEnd} (s : State σ κ) (c : Conn κ)
    (hgo : LivelyConn ((s.setConn c).push call') c) :
    ∀ c', (Executor.finish_batch s c ended call').conn = some c' → c'.close_after_flush = false →
      LivelyConn (Executor.finish_batch s c ended call') c' := by
  intro c' hc' hclose
  cases ended with
  | Continue =>
      cases hc'
      exact hgo
  | Quit =>
      cases hc'
      cases hclose
  | Failed =>
      cases hc'
      cases hclose
  | Subscribe cmds => cases hc'
  | ReplSync => cases hc'

/-- A turn of the batch on the worker. -/
theorem LivelyConn.batch {st : κ} {cmds : List Command} (h : LivelyConn s c)
    (hcalls : s.calls = .batch st cmds :: calls) (hst : c.st = none)
    (hunmuted : c.muted = false) :
    ∀ c', (ex.batch { s with calls := calls } c st cmds).conn = some c' →
      c'.close_after_flush = false → LivelyConn (ex.batch { s with calls := calls } c st cmds) c' := by
  obtain ⟨hwpos, hmuted, houtput, hinput, hmore, hparsed, hflushing⟩ := h
  rw [hcalls] at houtput hinput hmore hparsed hflushing
  have hend : ∀ (s₁ : State σ κ) (replies : Bytes) (st₁ : κ), s₁.calls = calls →
      s₁.unread = s.unread → s₁.shut = s.shut → s₁.armed = s.armed →
      LivelyConn ((s₁.setConn { c with wbuf := c.wbuf ++ replies, st := some st₁ }).push .process)
        { c with wbuf := c.wbuf ++ replies, st := some st₁ } := by
    intro s₁ replies st₁ hcalls₁ hunread hshut harmed
    have hlen : c.wpos ≤ (c.wbuf ++ replies).length := by
      rw [List.length_append]
      omega
    constructor <;> grind
  cases cmds with
  | nil =>
      refine LivelyConn.finish_batch _ _ ?_
      have hnil := hend { s with calls := calls } [] st rfl rfl rfl rfl
      rw [List.append_nil] at hnil
      exact hnil
  | cons cmd more =>
      intro c' hc' hclose
      cases hv : (ex.turn s.db st cmd more).verdict with
      | next =>
          simp only [Executor.batch, hv] at hc' ⊢
          cases hc'
          have hnot : ({ c with
              wbuf := c.wbuf ++ (ex.turn s.db st cmd more).replies } : Conn κ).ready = false :=
            not_ready hst
          have hlen : c.wpos ≤ (c.wbuf ++ (ex.turn s.db st cmd more).replies).length := by
            rw [List.length_append]
            omega
          constructor <;> grind
      | _ =>
          simp only [Executor.batch, hv] at hc' ⊢
          refine LivelyConn.finish_batch _ _ ?_ c' hc' hclose
          exact hend _ _ _ rfl rfl rfl rfl

/-- A batch comes back from the pool. -/
theorem LivelyConn.completions {comp : Completion κ} (h : LivelyConn s c) (hcalls : s.calls = [])
    (hannounced : comp.ended = .Continue → Announced s c comp) :
    ∀ c', (Executor.completions { s with completed := none } c comp).conn = some c' →
      c'.close_after_flush = false →
      LivelyConn (Executor.completions { s with completed := none } c comp) c' := by
  intro c' hc' hclose
  obtain ⟨hwpos, hmuted, houtput, hinput, hmore, hparsed, hflushing⟩ := h
  rw [hcalls] at houtput hinput hmore hparsed hflushing
  cases hended : comp.ended with
  | Continue =>
      have hann := hannounced hended
      simp only [Executor.completions, hended, Executor.finish_batch] at hc' ⊢
      cases hc'
      have hclose' : c.close_after_flush = false ∧ comp.eof = false := by
        simpa [Bool.or_eq_false_iff] using hclose
      have hlen : c.wpos ≤ (c.wbuf ++ comp.out).length := by
        rw [List.length_append]
        omega
      have hout : (c.wbuf ++ comp.out).length - c.wpos = c.pending_out + comp.out.length := by
        rw [Conn.pending_out, List.length_append]
        omega
      constructor
      · exact hlen
      · intro hm
        cases hm
      · intro hp
        change 0 < (c.wbuf ++ comp.out).length - c.wpos at hp
        rw [hout] at hp
        change s.room = false ∨ (s.armed || (c.muted && s.signalled)) = true ∨ _
        simp only [Executor.resume, State.push, State.setConn]
        rcases hann with hm | hmo | hroom | harmed | hlow
        · cases hroom : s.room with
          | false => exact .inl rfl
          | true => simp [hm, State.signalled, hroom]
        · cases hm : c.muted with
          | true =>
              cases hroom : s.room with
              | false => exact .inl rfl
              | true => simp [State.signalled, hroom]
          | false =>
              rw [hmo]
              exact .inr (.inr (.inl trivial))
        · exact .inl hroom
        · simp [harmed]
        · have hready : ({ c with
              rbuf := comp.rbuf, wbuf := c.wbuf ++ comp.out, st := some comp.st,
              close_after_flush := c.close_after_flush || comp.eof,
              more_to_read := c.more_to_read || c.muted, muted := false } : Conn κ).ready = true :=
            ready_iff.mpr ⟨rfl, hclose, by
              change (c.wbuf ++ comp.out).length - c.wpos ≤ _
              rw [hout]
              exact hlow⟩
          split
          · exact .inr (.inr (.inr ⟨hready, .inl List.mem_cons_self⟩))
          · exact .inr (.inr (.inl trivial))
      · intro hin
        change false = true ∨ (s.armed || (c.muted && s.signalled)) = true ∨ _ ∨
          (c.more_to_read || c.muted) = true ∨ _
        rcases hinput hin with hm | harmed | hreading | hmo | hflood
        · simp [hm]
        · simp [harmed]
        · simp [Reading] at hreading
        · simp [hmo]
        · exact absurd hflood (by simp [Flooded])
      · intro hmo
        change (c.more_to_read || c.muted) = true at hmo
        refine .inl ?_
        simp only [Executor.resume, hmo, if_true, State.push]
        exact List.mem_cons_self
      · intro _
        simp only [Executor.resume]
        split
        · exact .inr (.inl List.mem_cons_self)
        · exact .inr (.inr (.inl trivial))
      · intro rest hrest
        simp only [Executor.resume, State.push, List.cons.injEq] at hrest
        split at hrest
        · cases hrest.1
        · cases hrest.1
  | Quit =>
      simp only [Executor.completions, hended] at hc' ⊢
      cases hc'
      cases hclose
  | Failed =>
      simp only [Executor.completions, hended] at hc' ⊢
      cases hc'
      cases hclose
  | Subscribe cmds =>
      simp only [Executor.completions, hended] at hc'
      cases hc'
  | ReplSync =>
      simp only [Executor.completions, hended] at hc'
      cases hc'

end Calls

/-! ## Every step -/

section Every

variable {ex : Executor σ κ} {s s' : State σ κ}

/-- A step of a client, or one of the pool thread. -/
theorem Lively.beside (h : Lively s) (hconn : s'.conn = s.conn) (hcalls : s'.calls = s.calls)
    (harmed : s.armed = true → s'.armed = true)
    (hjob : s.job.isSome = true ∨ s.completed.isSome = true →
      s'.job.isSome = true ∨ s'.completed.isSome = true)
    (hroom : s'.room = true → s.room = true ∨ s'.armed = true ∨ s.unmuted = false)
    (hinput : s'.unread ≠ [] ∨ s'.shut = true → (s.unread ≠ [] ∨ s.shut = true) ∨
      s'.armed = true ∨ s.unmuted = false) : Lively s' := by
  intro c hc hclose
  rw [hconn] at hc
  have hlive := h c hc hclose
  have hmute : s.unmuted = false → c.muted = true := by
    intro hm
    rw [State.unmuted, hc] at hm
    simpa using hm
  constructor
  · exact hlive.wpos
  · intro hm
    obtain ⟨hp, hst, hj⟩ := hlive.muted hm
    exact ⟨hp, hst, hjob hj⟩
  · intro hp
    rw [hcalls]
    cases hr : s'.room with
    | false => exact .inl rfl
    | true =>
        rcases hroom hr with hr' | ha | hm
        · rcases hlive.output hp with hr'' | ha | hw
          · rw [hr'] at hr''
            cases hr''
          · exact .inr (.inl (harmed ha))
          · exact .inr (.inr hw)
        · exact .inr (.inl ha)
        · rw [(hlive.muted (hmute hm)).1] at hp
          exact absurd hp (Nat.lt_irrefl 0)
  · intro hin
    rw [hcalls]
    rcases hinput hin with hin' | ha | hm
    · rcases hlive.input hin' with hm | ha | hrest
      · exact .inl hm
      · exact .inr (.inl (harmed ha))
      · exact .inr (.inr hrest)
    · exact .inr (.inl ha)
    · exact .inl (hmute hm)
  · rw [hcalls]
    exact hlive.more
  · rw [hcalls]
    exact hlive.parsed
  · rw [hcalls]
    exact hlive.flushing

theorem Lively.event {out inp : Bool} (h : Lively s) (hcalls : s.calls = [])
    (hout : s.room = true → out = true)
    (hinp : s.unread ≠ [] ∨ s.shut = true → inp = true) : Lively (s.event out inp) := by
  intro c hc hclose
  obtain ⟨hwpos, hmuted, houtput, hinput, hmore, hparsed, hflushing⟩ := h c hc hclose
  rw [hcalls] at houtput hinput hmore hparsed hflushing
  constructor
  · exact hwpos
  · exact hmuted
  · intro hp
    cases hr : s.room with
    | false => exact .inl hr
    | true =>
        rw [hout hr]
        exact .inr (.inr (.inl trivial))
  · intro hin
    rw [hinp hin]
    refine .inr (.inr (.inl (.inl ?_)))
    simp [State.event]
  · intro hm
    rcases hmore hm with hmem | hrel | ⟨hready, _⟩
    · cases hmem
    · exact absurd hrel (by simp [Releasing])
    · refine .inr (.inr ⟨hready, ?_⟩)
      cases out <;> cases inp <;> simp [State.event, Running]
  · intro hready
    rcases hparsed hready with hread | hmem | hpar | hrel
    · exact .inl hread
    · cases hmem
    · exact absurd hpar (by simp [Parsing])
    · exact absurd hrel (by simp [Releasing])
  · intro rest hrest
    cases out <;> cases inp <;> simp [State.event] at hrest

theorem caughtUp_conn (s : State σ κ) (c : Conn κ) (was : Bool) :
    (Executor.caughtUp s c was).conn = some c := by
  unfold Executor.caughtUp
  split <;> rfl

/-- A connection that is closing stays so. -/
theorem closing_call {c c' : Conn κ} {call : Call κ} {io : Io} (hconn : s.conn = some c)
    (hclosing : c.close_after_flush = true) (hstep : ex.call s c call io = some s')
    (hc' : s'.conn = some c') : c'.close_after_flush = true := by
  have hflushed : ∀ (s₁ : State σ κ) (was : Bool),
      (Executor.flushed s₁ c was).conn = some c' → c'.close_after_flush = true := by
    intro s₁ was hc₁
    rcases flushed_cases s₁ c was with ⟨_, heq⟩ | ⟨c₁, hkept, heq⟩
    · rw [heq] at hc₁
      cases hc₁
    · rw [heq, caughtUp_conn] at hc₁
      cases hc₁
      exact hkept.close_after_flush.trans hclosing
  have hfinish : ∀ (s₁ : State σ κ) (c₁ : Conn κ) (ended : BatchEnd) (call : Call κ),
      c₁.close_after_flush = true → (Executor.finish_batch s₁ c₁ ended call).conn = some c' →
        c'.close_after_flush = true := by
    intro s₁ c₁ ended call hclose hc₁
    cases ended <;> cases hc₁
    · exact hclose
    · rfl
    · rfl
  have hready : c.ready = false := by
    rw [← Bool.not_eq_true]
    intro hr
    rw [(ready_iff.mp hr).2.1] at hclosing
    cases hclosing
  have hsame : s.conn = some c' → c'.close_after_flush = true := by
    intro h
    rw [hconn, Option.some.injEq] at h
    exact h ▸ hclosing
  unfold Executor.call at hstep
  split at hstep
  · cases hstep
    exact hsame hc'
  · unfold Executor.flushing at hstep
    split at hstep
    · split at hstep <;> cases hstep
      exact hflushed _ _ hc'
    · split at hstep
      · split at hstep <;> cases hstep
        · cases hc'
          exact hclosing
        · exact hflushed _ _ hc'
        · cases hc'
      · cases hstep
    · cases hstep
  · split at hstep <;> cases hstep <;> cases hc' <;> exact hclosing
  · unfold Executor.reading at hstep
    split at hstep
    · split at hstep <;> cases hstep
      cases hc'
      exact hclosing
    · split at hstep
      · split at hstep <;> cases hstep
        · cases hc'
          exact hclosing
        · exact hsame hc'
        · cases hc'
        · cases hc'
      · cases hstep
    · cases hstep
  · cases hstep
    unfold Executor.received at hc'
    split at hc'
    · cases hc'
      rfl
    · split at hc'
      · exact hsame hc'
      · exact hsame hc'
  · cases hstep
    unfold Executor.process at hc'
    split at hc'
    · next hr =>
        rw [hready] at hr
        cases hr
    · exact hsame hc'
  · next st cmds =>
      cases hstep
      unfold Executor.batch at hc'
      split at hc'
      · refine hfinish _ _ _ _ ?_ hc'
        exact hclosing
      · simp only at hc'
        split at hc'
        · cases hc'
          exact hclosing
        · refine hfinish _ _ _ _ ?_ hc'
          exact hclosing
  · cases hstep

theorem Lively.worker {found : List Command} {left : Bytes} {r : Service κ} {c : Conn κ}
    {call : Call κ} {calls : List (Call κ)} {io : Io} (h : Lively s)
    (hstage : Stage ex s found left r) (htail : ∀ call ∈ calls, call = .readable)
    (hcalls : s.calls = call :: calls) (hconn : s.conn = some c) (hok : HandledCall s c call io)
    (hstep : ex.call { s with calls := calls } c call io = some s') : Lively s' := by
  intro c' hc' hclose'
  have hclose : c.close_after_flush = false := by
    rw [← Bool.not_eq_true]
    intro hclosing
    rw [closing_call (s := { s with calls := calls }) hconn hclosing hstep hc'] at hclose'
    cases hclose'
  have hnot : ¬ c.close_after_flush = true := by
    rw [hclose]
    exact Bool.false_ne_true
  have hlive := h c hconn hclose
  cases call with
  | flush =>
      cases io <;> cases hstep
      have hcc : some c' = some c := hc'.symm.trans hconn
      cases hcc
      exact hlive.flush hcalls
  | flushing was =>
      have hflushed : ∀ room, (c.wpos = c.wbuf.length ∨ room = false) →
          (Executor.flushed { s with calls := calls, room := room } c was).conn = some c' →
          LivelyConn (Executor.flushed { s with calls := calls, room := room } c was) c' := by
        intro room hdone hc₁
        have hwpos := hlive.wpos
        have hpending : c.pending_out = c.wbuf.length - c.wpos := rfl
        unfold Executor.flushed at hc₁ ⊢
        split
        · next hall =>
            rw [if_pos hall, if_neg hnot] at hc₁
            exact LivelyConn.caughtUp { c with wbuf := [], wpos := 0 } hlive hcalls htail
              (Nat.le_refl 0) ⟨rfl, rfl, rfl, rfl, rfl⟩ (Nat.zero_le _)
              (fun hp => absurd hp (Nat.lt_irrefl 0)) c' hc₁
        · next hrest =>
            have hroom := hdone.resolve_left hrest
            rw [if_neg hrest] at hc₁
            split
            · next hbig =>
                rw [if_pos hbig] at hc₁
                refine LivelyConn.caughtUp { c with wbuf := c.wbuf.drop c.wpos, wpos := 0 } hlive
                  hcalls htail (Nat.zero_le _) ⟨rfl, rfl, rfl, rfl, rfl⟩ ?_ (fun _ => hroom) c' hc₁
                simp only [Conn.pending_out, List.length_drop]
                omega
            · next hsmall =>
                rw [if_neg hsmall] at hc₁
                exact LivelyConn.caughtUp c hlive hcalls htail hwpos ⟨rfl, rfl, rfl, rfl, rfl⟩ (Nat.le_refl _)
                  (fun _ => hroom) c' hc₁
      cases io with
      | nothing =>
          simp only [Executor.call, Executor.flushing] at hstep
          split at hstep
          · next hall =>
              cases hstep
              exact hflushed s.room (.inl hall) hc'
          · cases hstep
      | read a => cases hstep
      | poll a b => cases hstep
      | write w =>
          simp only [Executor.call, Executor.flushing] at hstep
          split at hstep
          · next hguard =>
              cases w with
              | bytes n =>
                  cases hstep
                  cases hc'
                  exact hlive.written hcalls hguard.2.2.1
              | wouldBlock =>
                  cases hstep
                  exact hflushed false (.inr rfl) hc'
              | failed =>
                  cases hstep
                  cases hc'
          · cases hstep
  | readable =>
      cases io <;> simp only [Executor.call, reduceCtorEq] at hstep
      split at hstep
      · next hst =>
          cases hstep
          cases hc'
          exact hlive.parked hcalls htail (Option.isNone_iff_eq_none.mp hst)
      · cases hstep
        cases hc'
        exact hlive.readable hcalls
  | reading =>
      cases io with
      | nothing =>
          simp only [Executor.call, Executor.reading] at hstep
          split at hstep
          · next hpaused =>
              cases hstep
              cases hc'
              rw [Bool.and_eq_true, Bool.not_eq_true'] at hpaused
              exact hlive.paused hcalls hpaused.1
          · cases hstep
      | write w => cases hstep
      | poll a b => cases hstep
      | read a =>
          simp only [Executor.call, Executor.reading] at hstep
          split at hstep
          · next hguard =>
              cases a with
              | bytes n =>
                  cases hstep
                  cases hc'
                  exact hlive.read hcalls
              | zero =>
                  cases hstep
                  cases hc'
              | wouldBlock =>
                  cases hstep
                  have hcc : some c' = some c := hc'.symm.trans hconn
                  cases hcc
                  exact hlive.readAll hcalls hguard.2.1 hguard.2.2
              | failed =>
                  cases hstep
                  cases hc'
          · cases hstep
  | received =>
      cases io <;> cases hstep
      have hlimit : ¬ QUERY_BUFFER_LIMIT < c.rbuf.length := Nat.not_lt.mpr hok
      have hreceived := hlive.received hcalls htail hok
      unfold Executor.received at hc' ⊢
      rw [if_neg hlimit] at hc' ⊢
      split at hc'
      · next hready =>
          rw [if_pos hready] at hreceived ⊢
          have hcc : some c' = some c := hc'.symm.trans hconn
          cases hcc
          exact hreceived
      · next hready =>
          rw [if_neg hready] at hreceived ⊢
          have hcc : some c' = some c := hc'.symm.trans hconn
          cases hcc
          exact hreceived
  | process =>
      cases io <;> cases hstep
      exact hlive.process hcalls c' hc' hconn hclose'
  | batch st cmds =>
      cases io <;> cases hstep
      obtain ⟨c₁, hc₁, hst, _, _, hjob, hcompleted, _⟩ := hstage.cases_of_batch hcalls
      rw [hconn, Option.some.injEq] at hc₁
      subst hc₁
      refine hlive.batch hcalls hst ?_ c' hc' hclose'
      rw [← Bool.not_eq_true]
      intro hm
      have hj := (hlive.muted hm).2.2
      rw [hjob, hcompleted] at hj
      simp at hj

theorem owned_held {j : Job κ} {io : Io}
    (hstep : ex.owned s j io = some s') :
    s'.armed = s.armed ∧ (s'.room = true → s.room = true) ∧ s'.shut = s.shut ∧
      (s'.unread ≠ [] → s.unread ≠ []) ∧ (s'.job.isSome = true ∨ s'.completed.isSome = true) := by
  have hself : s.armed = s.armed ∧ (s.room = true → s.room = true) ∧ s.shut = s.shut ∧
      (s.unread ≠ [] → s.unread ≠ []) := ⟨rfl, id, rfl, id⟩
  have hover : ∀ (s₁ : State σ κ) (j₁ : Job κ) (ended : BatchEnd),
      s₁.armed = s.armed → (s₁.room = true → s.room = true) → s₁.shut = s.shut →
      (s₁.unread ≠ [] → s.unread ≠ []) →
      (Executor.batchOver s₁ j₁ ended).armed = s.armed ∧
        ((Executor.batchOver s₁ j₁ ended).room = true → s.room = true) ∧
        (Executor.batchOver s₁ j₁ ended).shut = s.shut ∧
        ((Executor.batchOver s₁ j₁ ended).unread ≠ [] → s.unread ≠ []) ∧
        ((Executor.batchOver s₁ j₁ ended).job.isSome = true ∨
          (Executor.batchOver s₁ j₁ ended).completed.isSome = true) := by
    intro s₁ j₁ ended h₁ h₂ h₃ h₄
    unfold Executor.batchOver
    split
    · exact ⟨h₁, h₂, h₃, h₄, .inl rfl⟩
    · exact ⟨h₁, h₂, h₃, h₄, .inr rfl⟩
  unfold Executor.owned at hstep
  split at hstep
  · cases hstep
    unfold Executor.ownedBatch
    split
    · exact hover _ _ _ rfl id rfl id
    · simp only
      split
      · exact ⟨rfl, id, rfl, id, .inl rfl⟩
      · exact hover _ _ _ rfl id rfl id
  · unfold Executor.ownedWrite at hstep
    split at hstep
    · split at hstep <;> cases hstep
      exact ⟨rfl, id, rfl, id, .inl rfl⟩
    · split at hstep
      · split at hstep <;> cases hstep
        · exact ⟨rfl, id, rfl, id, .inl rfl⟩
        · exact ⟨rfl, fun hr => Bool.noConfusion hr, rfl, id, .inl rfl⟩
        · exact ⟨rfl, id, rfl, id, .inl rfl⟩
      · cases hstep
    · cases hstep
  · cases hstep
    unfold Executor.ownedWritten
    split
    · exact ⟨rfl, id, rfl, id, .inr rfl⟩
    · exact ⟨rfl, id, rfl, id, .inl rfl⟩
  · cases hstep
    unfold Executor.ownedNext
    split
    · exact ⟨rfl, id, rfl, id, .inr rfl⟩
    · simp only
      split
      · exact ⟨rfl, id, rfl, id, .inr rfl⟩
      · split
        · exact ⟨rfl, id, rfl, id, .inr rfl⟩
        · split <;> exact ⟨rfl, id, rfl, id, .inl rfl⟩
    · exact ⟨rfl, id, rfl, id, .inl rfl⟩
  · unfold Executor.ownedRead at hstep
    have hdrop : ∀ n, s.unread.drop n ≠ [] → s.unread ≠ [] := by
      intro n hne hnil
      exact hne (by rw [hnil, List.drop_nil])
    split at hstep
    · split at hstep
      · split at hstep
        · simp only at hstep
          split at hstep <;> cases hstep <;> exact ⟨rfl, id, rfl, hdrop _, .inl rfl⟩
        · cases hstep
          exact ⟨rfl, id, rfl, id, .inl rfl⟩
        · cases hstep
          exact ⟨rfl, id, rfl, id, .inl rfl⟩
        · cases hstep
          exact ⟨rfl, id, rfl, id, .inl rfl⟩
      · cases hstep
    · cases hstep
  · cases hstep

theorem Lively.step {st₀ : κ} {stream : Bytes} {a : Action σ} (h : Lively s)
    (hinv : Inv ex st₀ stream s) (hok : Handled s a) (hstep : step ex s a = some s') :
    Lively s' := by
  have harm : ∀ s₁ : State σ κ, s₁.conn = s.conn → s.armed = true → s₁.armed = s.armed →
      s₁.arm.armed = true := by
    intro s₁ _ ha heq
    simp [State.arm, heq, ha]
  have hheard : ∀ s₁ : State σ κ, s₁.conn = s.conn →
      s₁.arm.armed = true ∨ s.unmuted = false := by
    intro s₁ heq
    cases hm : s.unmuted with
    | false => exact .inr rfl
    | true =>
        rw [State.unmuted, ← heq] at hm
        simp [State.arm, State.unmuted, hm]
  cases a with
  | send n =>
      simp only [EventLoop.step] at hstep
      split at hstep <;> cases hstep
      exact h.beside rfl rfl (fun ha => harm _ rfl ha rfl) id (fun hr => .inl hr)
        fun _ => .inr (hheard _ rfl)
  | shutdown =>
      simp only [EventLoop.step] at hstep
      split at hstep <;> cases hstep
      exact h.beside rfl rfl (fun ha => harm _ rfl ha rfl) id (fun hr => .inl hr)
        fun _ => .inr (hheard _ rfl)
  | drain =>
      cases hstep
      exact h.beside rfl rfl (fun ha => harm _ rfl ha rfl) id (fun _ => .inr (hheard _ rfl))
        fun hin => .inl hin
  | hangup =>
      cases hstep
      exact h.beside rfl rfl (fun _ => rfl) id (fun hr => .inl hr) fun hin => .inl hin
  | others db =>
      cases hstep
      exact h.beside rfl rfl id id (fun hr => .inl hr) fun hin => .inl hin
  | event out inp =>
      simp only [EventLoop.step] at hstep
      split at hstep
      · next hguard =>
          cases hstep
          refine h.event (List.isEmpty_iff.mp hguard.2.1) hguard.2.2.2.1 ?_
          intro hin
          refine hguard.2.2.2.2 (hin.imp_left ?_)
          simp
      · cases hstep
  | collect =>
      simp only [EventLoop.step] at hstep
      split at hstep
      · next comp hcomp hcalls =>
          split at hstep
          · next hconn =>
              cases hstep
              intro c hc
              rw [hconn] at hc
              cases hc
          · next c hconn =>
              cases hstep
              intro c' hc' hclose'
              have hclose : c.close_after_flush = false := by
                obtain ⟨found, left, r, _, _, hstage⟩ := hinv.stage
                rw [← Bool.not_eq_true]
                intro hclosing
                have hnone := (hstage.final_of_closing hconn hclosing).1.completed
                rw [hcomp] at hnone
                cases hnone
              exact (h c hconn hclose).completions hcalls
                (fun hended => (hok comp c hcomp hconn hended).2) c' hc' hclose'
      · cases hstep
  | worker io =>
      obtain ⟨found, left, r, hreads, hserves, hstage⟩ := hinv.stage
      simp only [EventLoop.step] at hstep
      split at hstep
      · cases hstep
      · next call calls hcalls =>
          have htail := hinv.reads.tail
          rw [hcalls] at htail
          split at hstep
          · next hconn =>
              cases hstep
              intro c hc
              rw [hconn] at hc
              cases hc
          · next c hconn =>
              exact h.worker hstage htail hcalls hconn (hok call calls c hcalls hconn) hstep
  | pool io =>
      simp only [EventLoop.step, Option.bind_eq_some_iff] at hstep
      obtain ⟨j, hjob, hstep⟩ := hstep
      obtain ⟨hcalls, hconn⟩ := owned_beside hstep
      obtain ⟨harmed, hroom, hshut, hunread, hheld⟩ := owned_held hstep
      exact h.beside hconn hcalls (fun ha => harmed.trans ha) (fun _ => hheld)
        (fun hr => .inl (hroom hr)) fun hin => .inl (hin.imp hunread fun hs => hshut ▸ hs)

theorem lively_fresh (ex : Executor σ κ) (db : σ) (stream : Bytes) :
    Lively (fresh ex db stream) := by
  intro c hc hclose
  cases hc
  constructor
  · exact Nat.le_refl 0
  · intro hm
    cases hm
  · intro hp
    exact absurd hp (Nat.lt_irrefl 0)
  · exact fun _ => .inr (.inr (.inl (.inl List.mem_cons_self)))
  · intro hm
    cases hm
  · exact fun _ => .inr (.inl List.mem_cons_self)
  · intro calls hcalls
    cases hcalls

theorem lively_run {db : σ} {stream : Bytes} (h : Run (step ex) Handled (fresh ex db stream) s) :
    Inv ex (ex.new db) stream s ∧ Lively s :=
  Run.invariant (P := fun s => Inv ex (ex.new db) stream s ∧ Lively s)
    (fun _ _ _ hboth hok hstep => ⟨hboth.1.step hok hstep, hboth.2.step hboth.1 hok hstep⟩) h
    ⟨inv_fresh ex db stream, lively_fresh ex db stream⟩

end Every

/-! ## Quiet servers -/

/-- The worker and the pool have nothing to do. -/
def Quiet (ex : Executor σ κ) (s : State σ κ) : Prop :=
  ∀ a : Action σ, a.isServer = true → step ex s a = none

/-- The client does not take its output. -/
def HeldUp (s : State σ κ) : Prop :=
  ∃ c, s.conn = some c ∧ OUTPUT_HIGH_WATER < c.pending_out ∧ s.room = false

/-- The replies that are queued: those of the commands that were run, and the one that refuses
malformed input. -/
inductive Replied (ex : Executor σ κ) (s : State σ κ) (r : Service κ) (found : List Command)
    (left : Bytes) : Prop
  | served (h : s.queued = r.replies)
  | refused (e : ProtocolError) (hran : r.ran = pushed found) (hleft : readCommand left = .bad e)
      (h : s.queued = r.replies ++ protocolError (ex.resp3 r.st) (utf8 e.text))

/-- Everything was done: a command has ended the connection, all were run, or all in front of the
malformed one, which was refused. -/
inductive Completed (ex : Executor σ κ) (s : State σ κ) (r : Service κ) (found : List Command)
    (left : Bytes) : Prop
  | ended (hverdict : r.verdict ≠ .next) (h : s.queued = r.replies)
  | all (hran : r.ran = pushed found) (hleft : readCommand left = .more) (h : s.queued = r.replies)
  | refused (e : ProtocolError) (hran : r.ran = pushed found) (hleft : readCommand left = .bad e)
      (h : s.queued = r.replies ++ protocolError (ex.resp3 r.st) (utf8 e.text))

/-- The connection was served as a sequential server serves the whole stream, as far as it got, and
to the end when the client has closed and there is nothing more to do. -/
def ServedInOrder (ex : Executor σ κ) (st : κ) (stream : Bytes) (s : State σ κ) : Prop :=
  ∃ found left r, Reads stream found left ∧ Stuck left ∧ Serves ex st s.log r ∧
    r.ran <+: pushed found ∧ Replied ex s r found left ∧
    (s.shut = true → Quiet ex s → Completed ex s r found left ∨ HeldUp s)

section Quiet

variable {ex : Executor σ κ} {s : State σ κ}

/-- A call can always be made, with one answer of the socket or another. -/
theorem call_enabled {c : Conn κ} (hwpos : c.wpos ≤ c.wbuf.length) (call : Call κ) :
    ∃ io, (ex.call s c call io).isSome = true := by
  cases call with
  | flushing was =>
      by_cases hall : c.wpos = c.wbuf.length
      · exact ⟨.nothing, by simp [Executor.call, Executor.flushing, hall]⟩
      · have hlt : c.wpos < c.wbuf.length := by omega
        exact ⟨.write .failed, by simp [Executor.call, Executor.flushing, hlt, State.MayWrite]⟩
  | reading =>
      by_cases hpaused : c.ready = false ∧ PAUSED_INPUT_LIMIT < c.rbuf.length
      · exact ⟨.nothing, by simp [Executor.call, Executor.reading, hpaused]⟩
      · have hgo : c.ready = true ∨ c.rbuf.length ≤ PAUSED_INPUT_LIMIT := by
          cases hready : c.ready with
          | true => exact .inl rfl
          | false =>
              rw [hready] at hpaused
              exact .inr (by simpa using hpaused)
        exact ⟨.read .failed, by
          simp only [Executor.call, Executor.reading, State.MayRead, and_true, decide_eq_true_eq,
            Bool.or_eq_true, if_pos hgo, Option.isSome_some]⟩
  | readable =>
      refine ⟨.nothing, ?_⟩
      simp only [Executor.call]
      split <;> rfl
  | flush => exact ⟨.nothing, rfl⟩
  | received => exact ⟨.nothing, rfl⟩
  | process => exact ⟨.nothing, rfl⟩
  | batch st cmds => exact ⟨.nothing, rfl⟩

theorem owned_enabled (j : Job κ) : ∃ io, (ex.owned s j io).isSome = true := by
  cases hphase : j.phase with
  | batch => exact ⟨.nothing, by simp [Executor.owned, hphase]⟩
  | written ended => exact ⟨.nothing, by simp [Executor.owned, hphase]⟩
  | next waits reads => exact ⟨.poll false false, by simp [Executor.owned, hphase]⟩
  | read waits reads =>
      exact ⟨.read .failed, by simp [Executor.owned, Executor.ownedRead, hphase, State.MayRead]⟩
  | write ended =>
      by_cases hout : j.out = []
      · exact ⟨.nothing, by simp [Executor.owned, Executor.ownedWrite, hphase, hout]⟩
      · exact ⟨.write .failed,
          by simp [Executor.owned, Executor.ownedWrite, hphase, hout, State.MayWrite]⟩

theorem quiet_job (hquiet : Quiet ex s) : s.job = none := by
  cases hjob : s.job with
  | none => rfl
  | some j =>
      obtain ⟨io, hsome⟩ : ∃ io, (ex.owned s j io).isSome = true := owned_enabled j
      have hnone := hquiet (.pool io) rfl
      simp only [step, hjob, Option.bind_some] at hnone
      rw [hnone] at hsome
      cases hsome

theorem quiet_calls (hquiet : Quiet ex s) (hlive : Lively s)
    (hopen : ∀ c, s.conn = some c → c.close_after_flush = false) : s.calls = [] := by
  cases hcalls : s.calls with
  | nil => rfl
  | cons call calls =>
      cases hconn : s.conn with
      | none =>
          have hnone := hquiet (.worker .nothing) rfl
          simp only [step, hcalls, hconn, reduceCtorEq] at hnone
      | some c =>
          have hwpos := (hlive c hconn (hopen c hconn)).wpos
          obtain ⟨io, hsome⟩ : ∃ io, (ex.call { s with calls := calls } c call io).isSome = true :=
            call_enabled hwpos call
          have hnone := hquiet (.worker io) rfl
          simp only [step, hcalls, hconn] at hnone
          rw [hconn] at hsome
          rw [hnone] at hsome
          cases hsome

theorem quiet_completed (hquiet : Quiet ex s) (hcalls : s.calls = []) : s.completed = none := by
  cases hcompleted : s.completed with
  | none => rfl
  | some comp =>
      have hnone := hquiet .collect rfl
      cases hconn : s.conn with
      | none => simp only [step, hcompleted, hcalls, hconn, reduceCtorEq] at hnone
      | some c => simp only [step, hcompleted, hcalls, hconn, reduceCtorEq] at hnone

theorem quiet_armed (hquiet : Quiet ex s) (hcalls : s.calls = []) (hconn : s.conn.isSome = true) :
    s.armed = false := by
  cases harmed : s.armed with
  | false => rfl
  | true =>
      have hnone := hquiet (.event true true) rfl
      simp [step, hconn, hcalls, harmed] at hnone

/-- A quiet server has served all of a stream whose end it was told of, or waits for the client to
take its output. -/
theorem completed_of_quiet {found : List Command} {left : Bytes} {r : Service κ}
    (hstage : Stage ex s found left r) (hlive : Lively s) (hshut : s.shut = true)
    (hquiet : Quiet ex s) : Completed ex s r found left ∨ HeldUp s := by
  have hjob := quiet_job hquiet
  have hidle : Parked s.conn → s.completed = none := fun hp =>
    quiet_completed hquiet (quiet_calls hquiet hlive fun c hc => (hp c hc).2)
  cases hstage with
  | ending hending hverdict hran hqueued =>
      cases hending with
      | pool j hj hphase hcompleted hno hp =>
          rw [hjob] at hj
          cases hj
      | completed comp hcomp hended hj hno hp =>
          rw [hidle hp] at hcomp
          cases hcomp
  | finished hfinal hover =>
      left
      cases hover with
      | ended hverdict hran hqueued => exact .ended hverdict hqueued
      | drained hran hleft hqueued => exact .all hran hleft hqueued
      | refused e hran hleft hqueued => exact .refused e hran hleft hqueued
  | serving buf pending howner hnext hleft hran hqueued hnone =>
      generalize r.st = st at howner
      cases howner with
      | pool j hj hphase hcompleted hno hp =>
          rw [hjob] at hj
          cases hj
      | completed comp hcomp hended hj hno hp =>
          rw [hidle hp] at hcomp
          cases hcomp
      | inline c _ _ calls hconn hst hclose hcalls hrest hj hcompleted =>
          have hnil := quiet_calls hquiet hlive fun c' hc' => by
            rw [hconn, Option.some.injEq] at hc'
            exact hc' ▸ hclose
          rw [hcalls] at hnil
          cases hnil
      | worker c _ hconn hst hclose hno hj hcompleted =>
          right
          have hcalls := quiet_calls hquiet hlive fun c' hc' => by
            rw [hconn, Option.some.injEq] at hc'
            exact hc' ▸ hclose
          have harmed := quiet_armed hquiet hcalls (by rw [hconn]; rfl)
          obtain ⟨_, hmuted, houtput, hinput, hmore, _, _⟩ := hlive c hconn hclose
          rw [hcalls] at houtput hinput hmore
          rw [harmed] at houtput hinput
          have hmoreToRead : c.more_to_read = true := by
            rcases hinput (.inr hshut) with hm | ha | hreading | hm | hflood
            · have hheld := (hmuted hm).2.2
              rw [hj, hcompleted] at hheld
              simp at hheld
            · cases ha
            · simp [Reading] at hreading
            · exact hm
            · exact absurd hflood (by simp [Flooded])
          have hready : c.ready = false := by
            rcases hmore hmoreToRead with hmem | hrel | ⟨hready, _⟩
            · cases hmem
            · exact absurd hrel (by simp [Releasing])
            · exact hready
          have hhigh : OUTPUT_HIGH_WATER < c.pending_out := by
            by_contra hlow
            have hr : c.ready = true :=
              ready_iff.mpr ⟨by rw [hst]; rfl, hclose, Nat.not_lt.mp hlow⟩
            rw [hready] at hr
            cases hr
          refine ⟨c, hconn, hhigh, ?_⟩
          rcases houtput (Nat.lt_of_le_of_lt (Nat.zero_le _) hhigh) with hroom | ha | hw | ⟨hr, _⟩
          · exact hroom
          · cases ha
          · exact absurd hw (by simp [Writing])
          · rw [hready] at hr
            cases hr

end Quiet

/-- Every run of the event loop in which no step drops input serves the connection in order. -/
theorem served_in_order (ex : Executor σ κ) (db : σ) (stream : Bytes) (s : State σ κ)
    (hrun : Run (step ex) Handled (fresh ex db stream) s) :
    ServedInOrder ex (ex.new db) stream s := by
  obtain ⟨hinv, hlive⟩ := lively_run hrun
  obtain ⟨found, left, r, hreads, hserves, hstage⟩ := hinv.stage
  obtain ⟨more, rest, hmore, hstuck⟩ := Reads.exists_stuck left
  have hprefix : r.ran <+: pushed (found ++ more) := by
    rw [Resp.pushed_append]
    refine List.IsPrefix.trans ?_ (List.prefix_append (pushed found) (pushed more))
    cases hstage with
    | serving buf pending howner hnext hleft hran hqueued hnone =>
        exact ⟨pending, hran⟩
    | ending hending hverdict hran hqueued => exact hran
    | finished hfinal hover =>
        cases hover with
        | ended hverdict hran hqueued => exact hran
        | drained hran hleft hqueued => exact hran ▸ List.prefix_refl _
        | refused e hran hleft hqueued => exact hran ▸ List.prefix_refl _
  -- nothing more is parsed of what is at its end
  have hend : readCommand left = .more ∨ (∃ e, readCommand left = .bad e) →
      more = [] ∧ rest = left := by
    intro hread
    cases hmore with
    | refl => exact ⟨rfl, rfl⟩
    | step hdone _ =>
        rw [hdone] at hread
        rcases hread with hread | ⟨e, hread⟩ <;> cases hread
  refine ⟨found ++ more, rest, r, hreads.trans hmore, hstuck, hserves, hprefix, ?_, ?_⟩
  · cases hstage with
    | serving buf pending howner hnext hleft hran hqueued hnone => exact .served hqueued
    | ending hending hverdict hran hqueued => exact .served hqueued
    | finished hfinal hover =>
        cases hover with
        | ended hverdict hran hqueued => exact .served hqueued
        | drained hran hleft hqueued => exact .served hqueued
        | refused e hran hleft hqueued =>
            obtain ⟨rfl, rfl⟩ := hend (.inr ⟨e, hleft⟩)
            rw [List.append_nil]
            exact .refused e hran hleft hqueued
  · intro hshut hquiet
    rcases completed_of_quiet hstage hlive hshut hquiet with hcompleted | hheld
    · left
      cases hcompleted with
      | ended hverdict h => exact .ended hverdict h
      | all hran hleft h =>
          obtain ⟨rfl, rfl⟩ := hend (.inl hleft)
          rw [List.append_nil]
          exact .all hran hleft h
      | refused e hran hleft h =>
          obtain ⟨rfl, rfl⟩ := hend (.inr ⟨e, hleft⟩)
          rw [List.append_nil]
          exact .refused e hran hleft h
    · exact .inr hheld

/-! ## Two clients -/

/-- An executor that answers every command with `+OK`. -/
def okExecutor : Executor Unit Unit where
  new _ := ()
  turn _ _ _ _ :=
    { db := (), st := (), extra := 0, replies := [0x2b, 0x4f, 0x4b, 0x0d, 0x0a], verdict := .next }
  batch_inline _ _ _ := true
  resp3 _ := false

/-- `PING`, as an inline command. -/
def ping : Bytes := [0x50, 0x49, 0x4e, 0x47, 0x0d, 0x0a]

def freshPing : State Unit Unit := fresh okExecutor () ping

/-- The client closes before the worker has read its command. -/
def closedEarly : List (Action Unit) :=
  [.send 6, .shutdown, .worker .nothing, .worker (.read (.bytes 6)), .worker (.read .zero)]

/-- The worker leaves a client with a complete command that it has read and never runs. -/
theorem closed_before_run :
    ∃ s : State Unit Unit, Run (step okExecutor) (fun _ _ => True) freshPing s ∧
      ¬ ServedInOrder okExecutor () ping s := by
  have hrun : (exec (step okExecutor) (fun _ _ => true) freshPing closedEarly).any (fun s =>
      s.shut && s.conn.isNone && s.calls.isEmpty && s.job.isNone && s.completed.isNone &&
        s.log.isEmpty) = true := by
    decide +kernel
  obtain ⟨hs, hprop⟩ := (Option.any_eq_true_iff_get _ _).mp hrun
  refine ⟨_, .of_exec (fun _ _ _ => trivial) (Option.some_get hs).symm, ?_⟩
  generalize (exec (step okExecutor) (fun _ _ => true) freshPing closedEarly).get hs = s at hprop ⊢
  simp only [Bool.and_eq_true, Option.isNone_iff_eq_none, List.isEmpty_iff] at hprop
  obtain ⟨⟨⟨⟨⟨hshut, hconn⟩, hcalls⟩, hjob⟩, hcompleted⟩, hlog⟩ := hprop
  rintro ⟨found, left, r, hreads, hstuck, hserves, _, _, hall⟩
  have hquiet : Quiet okExecutor s := by
    intro a ha
    cases a with
    | event out inp => simp [step, hconn]
    | collect => simp [step, hcompleted]
    | worker io => simp [step, hcalls]
    | pool io => simp [step, hjob]
    | send n => cases ha
    | shutdown => cases ha
    | drain => cases ha
    | hangup => cases ha
    | others db => cases ha
  have hr : r = { st := (), ran := [], replies := [], verdict := .next } := by
    rw [hlog] at hserves
    generalize hlog' : ([] : List (Entry Unit)) = log at hserves
    cases hserves with
    | start => rfl
    | turn h hnext e => simp at hlog'
  have hping : Resp.readCommand ping = .done [[0x50, 0x49, 0x4e, 0x47]] [] := by rfl
  have hfound : found = [[[0x50, 0x49, 0x4e, 0x47]]] := by
    cases hreads with
    | refl => exact absurd hping (hstuck _ _)
    | step hdone hrest =>
        rw [hping, Resp.Read.done.injEq] at hdone
        obtain ⟨rfl, rfl⟩ := hdone
        cases hrest with
        | refl => rfl
        | step hdone' _ => cases hdone'
  subst hr hfound
  rcases hall hshut hquiet with hcompleted' | ⟨c, hc, _⟩
  · cases hcompleted' with
    | ended hverdict _ => exact hverdict rfl
    | all hran _ _ => cases hran
    | refused e hran _ _ => cases hran
  · rw [hconn] at hc
    cases hc

/-- The client waits for the reply before it closes. -/
def closedLate : List (Action Unit) :=
  [.send 6, .worker .nothing, .worker (.read (.bytes 6)), .worker (.read .wouldBlock),
    .worker .nothing, .worker .nothing, .worker .nothing, .worker .nothing, .worker .nothing,
    .worker .nothing, .worker (.write (.bytes 5)), .worker .nothing, .shutdown, .event true true,
    .worker .nothing, .worker .nothing, .worker .nothing, .worker (.read .zero)]

/-- A test for the steps of a run without refusals, socket errors or the pool. -/
def handledHere (s : State Unit Unit) : Action Unit → Bool
  | .worker .nothing => s.conn.all fun c =>
      decide (c.rbuf.length ≤ QUERY_BUFFER_LIMIT) && (parse_commands c.rbuf).isOk
  | .worker (.read .failed) => false
  | .worker (.write .failed) => false
  | .worker (.read .zero) =>
      match readCommand s.rest with
      | .more => true
      | _ => false
  | .collect => false
  | _ => true

theorem handled_here {s : State Unit Unit} {a : Action Unit} (h : handledHere s a = true) :
    Handled s a := by
  cases a with
  | worker io =>
      intro call calls c hcalls hconn
      cases io with
      | nothing =>
          rw [handledHere, hconn, Option.all_some, Bool.and_eq_true, decide_eq_true_eq] at h
          cases call with
          | received => exact h.1
          | process =>
              intro _ e cursor herror
              rw [herror] at h
              cases h.2
          | _ => trivial
      | read a =>
          cases a with
          | failed => cases h
          | zero =>
              cases call with
              | reading =>
                  refine .inr (.inr ?_)
                  rw [handledHere] at h
                  split at h
                  · assumption
                  · cases h
              | _ => trivial
          | _ => cases call <;> trivial
      | write w =>
          cases w with
          | failed => cases h
          | _ => cases call <;> trivial
      | poll a b => cases call <;> trivial
  | collect => cases h
  | _ => trivial

theorem served_closedLate :
    ∃ s : State Unit Unit, s.shut = true ∧ s.conn.isNone = true ∧ s.log.length = 1 ∧
      ServedInOrder okExecutor () ping s := by
  have hrun : (exec (step okExecutor) handledHere freshPing closedLate).any (fun s =>
      s.shut && s.conn.isNone && decide (s.log.length = 1)) = true := by
    decide +kernel
  obtain ⟨hs, hprop⟩ := (Option.any_eq_true_iff_get _ _).mp hrun
  rw [Bool.and_eq_true, Bool.and_eq_true, decide_eq_true_eq] at hprop
  exact ⟨_, hprop.1.1, hprop.1.2, hprop.2, served_in_order okExecutor () ping _
    (.of_exec (fun _ _ hok => handled_here hok) (Option.some_get hs).symm)⟩

end EventLoop
end StrikeDB
