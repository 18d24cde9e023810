import StrikeDB.RespReader

/-!
# StrikeDB: how the bytes of a connection arrive

`parse_commands` drains the complete commands of a buffer, and a connection
calls it after every read until it finds no more.  What a connection makes of a
byte stream, the commands and the place and text of a protocol error, should not
depend on how the stream was cut into reads.

* `knows_received`: after any reads the connection is open in front of a command
  that is not complete, or was closed on a malformed one.
* `parsing_independent_iff`: cuts do not matter exactly when no command has a
  line of more than `MAX_LINE` bytes that does end, unless the command is
  refused for such a line without an end anyway.
-/

namespace StrikeDB
namespace Resp

/-! ## The connection -/

/-- The loop of `parse_commands`.  The commands in front of a malformed one are
given out first; `cursor` in an error is where the malformed one starts. -/
def parseLoop (buf : Bytes) :
    Nat → Nat → List Command → Except (Fault × Nat) (List Command × Nat)
  | 0, cursor, cmds => .ok (cmds, cursor)
  | fuel + 1, cursor, cmds =>
      match try_parse (buf.drop cursor) with
      | .ok (some (cmd, consumed)) =>
          parseLoop buf fuel (cursor + consumed) (if cmd.isEmpty then cmds else cmds ++ [cmd])
      | .ok none => .ok (cmds, cursor)
      | .error e => if cmds ≠ [] then .ok (cmds, cursor) else .error (e, cursor)

/-- Drain every complete command from `buf`; each takes at least one byte. -/
def parse_commands (buf : Bytes) : Except (Fault × Nat) (List Command × Bytes) :=
  match parseLoop buf (buf.length + 1) 0 [] with
  | .ok (cmds, cursor) => .ok (cmds, buf.drop cursor)
  | .error e => .error e

/-- A connection: the bytes read but not parsed, how many were parsed before
them, the commands handed on, and the error that closed it with the place of the
malformed command in the stream. -/
structure Conn where
  rbuf : Bytes
  parsed : Nat
  cmds : List Command
  closed : Option (Fault × Nat)
deriving DecidableEq

def Conn.fresh : Conn := { rbuf := [], parsed := 0, cmds := [], closed := none }

/-- `parse_commands` until it gives nothing. -/
def Conn.drain : Nat → Conn → Conn
  | 0, c => c
  | fuel + 1, c =>
      match parse_commands c.rbuf with
      | .error (e, cursor) => { c with closed := some (e, c.parsed + cursor) }
      | .ok (cmds, rest) =>
          let c' : Conn :=
            { c with
              rbuf := rest
              parsed := c.parsed + (c.rbuf.length - rest.length)
              cmds := c.cmds ++ cmds }
          if cmds.isEmpty then c' else drain fuel c'

/-- One read of the socket. -/
def Conn.receive (c : Conn) (piece : Bytes) : Conn :=
  if c.closed.isSome then c
  else Conn.drain (c.rbuf.length + piece.length + 1) { c with rbuf := c.rbuf ++ piece }

def received (pieces : List Bytes) : Conn := pieces.foldl Conn.receive Conn.fresh

/-- What a connection made of the stream: the commands and the protocol error. -/
def outcome (pieces : List Bytes) : List Command × Option (Fault × Nat) :=
  ((received pieces).cmds, (received pieces).closed)

/-- The cuts of the stream do not matter. -/
def CutIndependent (stream : Bytes) : Prop :=
  ∀ pieces pieces' : List Bytes, pieces.flatten = stream → pieces'.flatten = stream →
    outcome pieces = outcome pieces'

/-! ## Complete commands -/

/-- `cmds` are complete commands at the front of a buffer, `rest` is what follows. -/
inductive Reads : Bytes → List Command → Bytes → Prop
  | refl (buf : Bytes) : Reads buf [] buf
  | step {buf mid rest : Bytes} {cmd : Command} {cmds : List Command}
      (hread : readCommand buf = .done cmd mid) (hrest : Reads mid cmds rest) :
      Reads buf (cmd :: cmds) rest

/-- The reader cannot go on: it wants more bytes or complains. -/
def Stuck (buf : Bytes) : Prop := ∀ cmd rest, readCommand buf ≠ .done cmd rest

/-- Empty commands are consumed and not handed on. -/
def pushed (cmds : List Command) : List Command := cmds.filter fun cmd => !cmd.isEmpty

/-- Where a stuck reader leaves the connection. -/
def verdict (place : Nat) : Read Command → Option (Fault × Nat)
  | .bad e => some (.invalid e, place)
  | _ => none

namespace Reads

theorem local_ {buf rest : Bytes} {cmds : List Command} (h : Reads buf cmds rest) :
    ∃ taken, buf = taken ++ rest ∧ ∀ more, Reads (taken ++ more) cmds more := by
  induction h with
  | refl buf => exact ⟨[], rfl, fun more => .refl more⟩
  | @step buf mid rest cmd cmds hread _ ih =>
      obtain ⟨taken₁, rfl, hall₁⟩ := frontal_readCommand.done hread
      obtain ⟨taken₂, rfl, hall₂⟩ := ih
      refine ⟨taken₁ ++ taken₂, by rw [List.append_assoc], ?_⟩
      intro more
      rw [List.append_assoc]
      exact .step (hall₁ _) (hall₂ more)

theorem append {buf rest : Bytes} {cmds : List Command} (h : Reads buf cmds rest)
    (more : Bytes) : Reads (buf ++ more) cmds (rest ++ more) := by
  obtain ⟨taken, rfl, hall⟩ := h.local_
  rw [List.append_assoc]
  exact hall _

theorem length_le {buf rest : Bytes} {cmds : List Command} (h : Reads buf cmds rest) :
    rest.length ≤ buf.length := by
  obtain ⟨taken, rfl, _⟩ := h.local_
  rw [List.length_append]
  omega

theorem trans {buf mid rest : Bytes} {cmds cmds' : List Command}
    (h : Reads buf cmds mid) (h' : Reads mid cmds' rest) : Reads buf (cmds ++ cmds') rest := by
  induction h with
  | refl buf => exact h'
  | step hread _ ih => exact .step hread (ih h')

/-- Two readings of one buffer run in step. -/
theorem prefix_or
    {buf rest rest' : Bytes} {cmds cmds' : List Command}
    (h : Reads buf cmds rest) (h' : Reads buf cmds' rest') (hstuck : Stuck rest') :
    ∃ more, cmds' = cmds ++ more ∧ Reads rest more rest' := by
  induction h generalizing cmds' with
  | refl buf => exact ⟨cmds', rfl, h'⟩
  | @step buf mid rest cmd cmds hread _ ih =>
      cases h' with
      | refl => exact absurd hread (hstuck cmd mid)
      | @step _ mid' _ cmd' cmds' hread' hrest' =>
          rw [hread, Read.done.injEq] at hread'
          obtain ⟨rfl, rfl⟩ := hread'
          obtain ⟨more, rfl, hmore⟩ := ih hrest'
          exact ⟨more, rfl, hmore⟩

/-- Every buffer is read until the reader is stuck. -/
theorem exists_stuck (buf : Bytes) : ∃ cmds rest, Reads buf cmds rest ∧ Stuck rest := by
  induction hlen : buf.length using Nat.strong_induction_on generalizing buf with
  | _ n ih =>
      cases hread : readCommand buf with
      | done cmd mid =>
          have hlt := readCommand_length_lt hread
          obtain ⟨cmds, rest, hreads, hstuck⟩ := ih mid.length (by omega) mid rfl
          exact ⟨cmd :: cmds, rest, .step hread hreads, hstuck⟩
      | more => exact ⟨[], buf, .refl buf, by simp [Stuck, hread]⟩
      | bad e => exact ⟨[], buf, .refl buf, by simp [Stuck, hread]⟩

end Reads

theorem pushed_append (cmds cmds' : List Command) :
    pushed (cmds ++ cmds') = pushed cmds ++ pushed cmds' := by
  simp [pushed]

/-! ## What the loops do -/

theorem parseLoop_eq
    (buf : Bytes) {fuel cursor : Nat} {cmds found : List Command} {rest : Bytes}
    (hcursor : cursor ≤ buf.length) (hfuel : buf.length - cursor < fuel)
    (h : Reads (buf.drop cursor) found rest) (hstuck : Stuck rest) :
    parseLoop buf fuel cursor cmds =
      match readCommand rest with
      | .bad e =>
          if cmds ++ pushed found ≠ [] then .ok (cmds ++ pushed found, buf.length - rest.length)
          else .error (.invalid e, buf.length - rest.length)
      | _ => .ok (cmds ++ pushed found, buf.length - rest.length) := by
  induction fuel generalizing cursor cmds found with
  | zero => omega
  | succ fuel ih =>
      rw [parseLoop, try_parse_eq]
      cases h with
      | refl =>
          have hplace : buf.length - (buf.drop cursor).length = cursor := by
            rw [List.length_drop]
            omega
          rw [hplace]
          cases hread : readCommand (buf.drop cursor) with
          | done cmd mid => exact absurd hread (hstuck cmd mid)
          | more => simp [Read.result, pushed]
          | bad e => simp [Read.result, pushed]
      | @step _ mid _ cmd found hread hrest =>
          rw [hread]
          simp only [Read.result]
          obtain ⟨taken, hsplit, _⟩ := frontal_readCommand.done hread
          have hlt := readCommand_length_lt hread
          have hlength := congrArg List.length hsplit
          rw [List.length_drop, List.length_append] at hlength
          rw [List.length_drop] at hlt
          have hmid : buf.drop (cursor + ((buf.drop cursor).length - mid.length)) = mid := by
            have htaken : (buf.drop cursor).length - mid.length = taken.length := by
              rw [List.length_drop]
              omega
            rw [htaken, ← List.drop_drop, hsplit, List.drop_left]
          rw [List.length_drop] at hmid ⊢
          rw [ih (by omega) (by omega) (by rw [hmid]; exact hrest)]
          have hpushed : (if cmd.isEmpty then cmds else cmds ++ [cmd]) ++ pushed found =
              cmds ++ pushed (cmd :: found) := by
            cases hcmd : cmd.isEmpty <;> simp [pushed, hcmd]
          rw [hpushed]

/-- What is left is the end of the buffer. -/
theorem Reads.drop_eq {buf rest : Bytes} {cmds : List Command} (h : Reads buf cmds rest) :
    buf.drop (buf.length - rest.length) = rest := by
  obtain ⟨taken, rfl, _⟩ := h.local_
  have htaken : (taken ++ rest).length - rest.length = taken.length := by
    rw [List.length_append]
    omega
  rw [htaken, List.drop_left]

theorem parse_commands_eq
    {buf rest : Bytes} {found : List Command} (h : Reads buf found rest) (hstuck : Stuck rest) :
    parse_commands buf =
      match readCommand rest with
      | .bad e =>
          if pushed found ≠ [] then .ok (pushed found, rest)
          else .error (.invalid e, buf.length - rest.length)
      | _ => .ok (pushed found, rest) := by
  have hfuel : buf.length - 0 < buf.length + 1 := by omega
  have hcmds : ([] : List Command) ++ pushed found = pushed found := rfl
  rw [parse_commands, parseLoop_eq buf (Nat.zero_le _) hfuel h hstuck, hcmds]
  cases hread : readCommand rest with
  | done cmd mid => exact absurd hread (hstuck cmd mid)
  | more => simp [h.drop_eq]
  | bad e =>
      by_cases hempty : pushed found = []
      · simp [hempty]
      · simp [hempty, h.drop_eq]

/-- `c'` is `c` after it has handed on `found` and stopped in front of `rest`. -/
structure Drained (c : Conn) (found : List Command) (rest : Bytes) (c' : Conn) : Prop where
  cmds : c'.cmds = c.cmds ++ pushed found
  closed : c'.closed = verdict (c.parsed + (c.rbuf.length - rest.length)) (readCommand rest)
  place : c'.closed = none →
    c'.rbuf = rest ∧ c'.parsed = c.parsed + (c.rbuf.length - rest.length)

/-- A complete command is not empty. -/
theorem Reads.length_lt
    {buf rest : Bytes} {cmds : List Command} (h : Reads buf cmds rest) (hne : cmds ≠ []) :
    rest.length < buf.length := by
  cases h with
  | refl => exact absurd rfl hne
  | step hread hrest =>
      have hlt := readCommand_length_lt hread
      have hle := hrest.length_le
      omega

/-- Draining hands on every complete command and stops where the reader does. -/
theorem drained_drain
    {fuel : Nat} {c : Conn} {found : List Command} {rest : Bytes}
    (hfuel : c.rbuf.length < fuel) (hopen : c.closed = none)
    (h : Reads c.rbuf found rest) (hstuck : Stuck rest) :
    Drained c found rest (c.drain fuel) := by
  induction fuel generalizing c found with
  | zero => omega
  | succ fuel ih =>
      rw [Conn.drain, parse_commands_eq h hstuck]
      by_cases hpushed : pushed found = []
      · cases hread : readCommand rest with
        | done cmd mid => exact absurd hread (hstuck cmd mid)
        | more =>
            simp only [hpushed, List.append_nil, List.isEmpty_nil, if_true]
            exact ⟨by simp [hpushed], by simp [hopen, hread, verdict], fun _ => ⟨rfl, rfl⟩⟩
        | bad e =>
            simp only [hpushed, ne_eq, not_true_eq_false, if_false]
            exact ⟨by simp [hpushed], by simp [hread, verdict], fun hclosed => by simp at hclosed⟩
      · have hfound : found ≠ [] := by
          rintro rfl
          exact hpushed rfl
        have hlt := h.length_lt hfound
        have hparse :
            (match readCommand rest with
              | .bad e =>
                  if pushed found ≠ [] then .ok (pushed found, rest)
                  else .error (Fault.invalid e, c.rbuf.length - rest.length)
              | _ => .ok (pushed found, rest)) = Except.ok (pushed found, rest) := by
          split
          · rw [if_pos hpushed]
          · rfl
        rw [hparse]
        simp only [List.isEmpty_iff, hpushed, if_false]
        have hnext := ih (c := { c with
            rbuf := rest
            parsed := c.parsed + (c.rbuf.length - rest.length)
            cmds := c.cmds ++ pushed found }) (by simpa using by omega) hopen (.refl rest)
        constructor
        · rw [hnext.cmds]
          simp [pushed]
        · rw [hnext.closed]
          simp
        · intro hclosed
          obtain ⟨hrbuf, hparsed⟩ := hnext.place hclosed
          exact ⟨hrbuf, by rw [hparsed]; simp⟩

/-! ## What a connection knows -/

/-- What holds of a connection that has read the bytes `seen`: it is open in
front of a command that is not complete, or it was closed on a malformed command
at the end of a part of them. -/
inductive Knows (seen : Bytes) (c : Conn) : Prop
  | waiting {found : List Command} (hreads : Reads seen found c.rbuf)
      (hmore : readCommand c.rbuf = .more) (hcmds : c.cmds = pushed found)
      (hparsed : c.parsed = seen.length - c.rbuf.length) (hclosed : c.closed = none)
  | refused {front back rest : Bytes} {found : List Command} {e : ProtocolError}
      (hseen : seen = front ++ back) (hreads : Reads front found rest)
      (hbad : readCommand rest = .bad e) (hcmds : c.cmds = pushed found)
      (hclosed : c.closed = some (.invalid e, front.length - rest.length))

theorem knows_fresh : Knows [] Conn.fresh :=
  .waiting (.refl []) (by decide) rfl rfl rfl

theorem Knows.receive {seen : Bytes} {c : Conn} (h : Knows seen c) (piece : Bytes) :
    Knows (seen ++ piece) (c.receive piece) := by
  cases h with
  | @refused front back rest found e hseen hreads hbad hcmds hclosed =>
      have hsame : c.receive piece = c := by simp [Conn.receive, hclosed]
      rw [hsame]
      have hseen' : seen ++ piece = front ++ (back ++ piece) := by
        rw [hseen, List.append_assoc]
      exact .refused hseen' hreads hbad hcmds hclosed
  | @waiting found hreads hmore hcmds hparsed hclosed =>
      obtain ⟨next, rest, hnext, hstuck⟩ := Reads.exists_stuck (c.rbuf ++ piece)
      have hwhole : Reads (seen ++ piece) (found ++ next) rest :=
        (hreads.append piece).trans hnext
      have hle := hreads.length_le
      have hle' := hnext.length_le
      have hdrained : Drained { c with rbuf := c.rbuf ++ piece } next rest (c.receive piece) := by
        rw [Conn.receive, if_neg (by simp [hclosed])]
        refine drained_drain ?_ hclosed hnext hstuck
        simp only [List.length_append]
        omega
      have hcmds' : (c.receive piece).cmds = pushed (found ++ next) := by
        rw [hdrained.cmds, hcmds, pushed_append]
      rw [List.length_append] at hle'
      have hplace : c.parsed + ((c.rbuf ++ piece).length - rest.length) =
          (seen ++ piece).length - rest.length := by
        rw [hparsed, List.length_append, List.length_append]
        omega
      have hverdict := hdrained.closed
      rw [hplace] at hverdict
      cases hread : readCommand rest with
      | done cmd mid => exact absurd hread (hstuck cmd mid)
      | more =>
          rw [hread] at hverdict
          obtain ⟨hrbuf, hparsed'⟩ := hdrained.place hverdict
          rw [hplace] at hparsed'
          rw [← hrbuf] at hwhole hread hparsed'
          exact .waiting hwhole hread hcmds' hparsed' hverdict
      | bad e =>
          rw [hread] at hverdict
          exact .refused (List.append_nil _).symm hwhole hread hcmds' hverdict

theorem knows_received (pieces : List Bytes) : Knows pieces.flatten (received pieces) := by
  suffices h : ∀ (seen : Bytes) (c : Conn), Knows seen c →
      Knows (seen ++ pieces.flatten) (pieces.foldl Conn.receive c) by
    simpa [received] using h [] Conn.fresh knows_fresh
  induction pieces with
  | nil =>
      intro seen c h
      simpa using h
  | cons piece pieces ih =>
      intro seen c h
      simpa using ih _ _ (h.receive piece)

/-- Two readings that both got stuck are the same. -/
theorem Reads.unique
    {buf rest rest' : Bytes} {cmds cmds' : List Command}
    (h : Reads buf cmds rest) (h' : Reads buf cmds' rest')
    (hstuck : Stuck rest) (hstuck' : Stuck rest') : cmds' = cmds ∧ rest' = rest := by
  obtain ⟨more, rfl, hmore⟩ := h.prefix_or h' hstuck'
  cases hmore with
  | refl => exact ⟨List.append_nil _, rfl⟩
  | step hread _ => exact absurd hread (hstuck _ _)

theorem stuck_of_more {buf : Bytes} (h : readCommand buf = .more) : Stuck buf := by
  simp [Stuck, h]

theorem stuck_of_bad {buf : Bytes} {e : ProtocolError} (h : readCommand buf = .bad e) :
    Stuck buf := by
  simp [Stuck, h]

/-- What a connection makes of a stream that arrives in one piece. -/
theorem outcome_single
    {stream rest : Bytes} {found : List Command}
    (h : Reads stream found rest) (hstuck : Stuck rest) :
    outcome [stream] =
      (pushed found, verdict (stream.length - rest.length) (readCommand rest)) := by
  have hdrained : Drained { Conn.fresh with rbuf := stream } found rest
      (Conn.drain (stream.length + 1) { Conn.fresh with rbuf := stream }) :=
    drained_drain (by simp) rfl h hstuck
  have hreceived : received [stream] =
      Conn.drain (stream.length + 1) { Conn.fresh with rbuf := stream } := by
    simp [received, Conn.receive, Conn.fresh]
  rw [outcome, hreceived, hdrained.cmds, hdrained.closed]
  simp [Conn.fresh]

/-- Once closed, a connection stays as it is. -/
theorem outcome_of_closed
    {front : Bytes} {cmds : List Command} {stop : Fault × Nat}
    (h : outcome [front] = (cmds, some stop)) (back : Bytes) :
    outcome [front, back] = (cmds, some stop) := by
  rw [outcome, Prod.mk.injEq] at h
  obtain ⟨hcmds, hclosed⟩ := h
  have hsame : received [front, back] = received [front] := by
    have hstep : received [front, back] = (received [front]).receive back := rfl
    rw [hstep, Conn.receive, if_pos (by simp [hclosed])]
  rw [outcome, hsame, hcmds, hclosed]

/-! ## Cuts -/

/-- A command with a line that is too long but does end is refused anyway, for
such a line without an end. -/
def LongLinesRefused (stream : Bytes) : Prop :=
  ∀ cmds rest, Reads stream cmds rest → Visits Overlong rest → Visits Unended rest

/-- A call of the parser indexes no byte that is not there and takes none. -/
def StaysInside (buf : Bytes) : Prop :=
  try_parse buf ≠ .error .panic ∧
    ∀ cmd consumed, try_parse buf = .ok (some (cmd, consumed)) → consumed ≤ buf.length

theorem staysInside (buf : Bytes) : StaysInside buf := by
  rw [StaysInside, try_parse_eq]
  cases readCommand buf with
  | more => simp [Read.result]
  | bad e => simp [Read.result]
  | done cmd rest =>
      refine ⟨by simp [Read.result], ?_⟩
      intro cmd' consumed h
      simp only [Read.result, Except.ok.injEq, Option.some.injEq, Prod.mk.injEq] at h
      omega

/-- However the stream is cut, a connection makes of it what it makes of the
whole. -/
theorem outcome_of_refused
    {pieces : List Bytes} {rest : Bytes} {found : List Command}
    (hrefused : LongLinesRefused pieces.flatten)
    (h : Reads pieces.flatten found rest) (hstuck : Stuck rest) :
    outcome pieces =
      (pushed found, verdict (pieces.flatten.length - rest.length) (readCommand rest)) := by
  have hknows := knows_received pieces
  rw [outcome]
  cases hknows with
  | @waiting found' hreads hmore hcmds _ hclosed =>
      obtain ⟨rfl, hrest⟩ := h.unique hreads hstuck (stuck_of_more hmore)
      rw [← hrest, hmore, hcmds, hclosed]
      rfl
  | @refused front back rest' found' e hseen hreads hbad hcmds hclosed =>
      have hwhole : Reads pieces.flatten found' (rest' ++ back) := by
        rw [hseen]
        exact hreads.append back
      have hbad' : readCommand (rest' ++ back) = .bad e := by
        by_cases he : e = .tooBigInline
        · subst he
          have hvisits := (readCommand_tooBig_iff rest').mp hbad
          rw [readCommand_tooBig_iff]
          rcases visits_append hvisits back with hopen | hlong
          · exact hopen
          · exact hrefused _ _ hwhole hlong
        · exact frontal_readCommand.bad hbad he back
      obtain ⟨rfl, rfl⟩ := h.unique hwhole hstuck (stuck_of_bad hbad')
      have hle := hreads.length_le
      have hplace : pieces.flatten.length - (rest' ++ back).length =
          front.length - rest'.length := by
        rw [hseen, List.length_append, List.length_append]
        omega
      rw [hcmds, hclosed, hbad', hplace]
      rfl

/-- A cut inside of a long line makes a difference, unless its command is
refused in one piece too. -/
theorem LongLinesRefused.of_cutIndependent
    {stream : Bytes} (h : CutIndependent stream) : LongLinesRefused stream := by
  intro cmds buf hreads hlong
  obtain ⟨front, back, rfl, hopen⟩ := visits_cut hlong
  obtain ⟨taken, rfl, hall⟩ := hreads.local_
  have hbad := (readCommand_tooBig_iff front).mpr hopen
  obtain ⟨found, rest, hwhole, hstuck⟩ := Reads.exists_stuck (taken ++ (front ++ back))
  have hfront := outcome_single (hall front) (stuck_of_bad hbad)
  rw [hbad, verdict] at hfront
  have hcut := outcome_of_closed hfront back
  have hsame := h [taken ++ front, back] [taken ++ (front ++ back)] (by simp) (by simp)
  rw [hcut, outcome_single hwhole hstuck, Prod.mk.injEq] at hsame
  obtain ⟨_, hclosed⟩ := hsame
  obtain ⟨more, rfl, hmore⟩ := hreads.prefix_or hwhole hstuck
  rw [← readCommand_tooBig_iff]
  cases hread : readCommand rest with
  | done cmd mid => exact absurd hread (hstuck cmd mid)
  | more => simp [hread, verdict] at hclosed
  | bad e =>
      rw [hread, verdict, Option.some.injEq, Prod.mk.injEq, Fault.invalid.injEq] at hclosed
      obtain ⟨rfl, hplace⟩ := hclosed
      cases hmore with
      | refl => exact hread
      | step hstep hrest =>
          have hlt := (Reads.step hstep hrest).length_lt (by simp)
          simp only [List.length_append] at hplace hlt
          omega

/-- The cuts of a stream do not matter, and no call of the parser leaves its
buffer, exactly when no command has a line of more than `MAX_LINE` bytes that
does end, unless that command is refused anyway. -/
theorem parsing_independent_iff (stream : Bytes) :
    (CutIndependent stream ∧ ∀ buf, StaysInside buf) ↔ LongLinesRefused stream := by
  constructor
  · rintro ⟨hcut, _⟩
    exact .of_cutIndependent hcut
  · intro hrefused
    refine ⟨?_, staysInside⟩
    intro pieces pieces' hpieces hpieces'
    obtain ⟨found, rest, hreads, hstuck⟩ := Reads.exists_stuck stream
    rw [outcome_of_refused (by rwa [hpieces]) (by rwa [hpieces]) hstuck,
      outcome_of_refused (by rwa [hpieces']) (by rwa [hpieces']) hstuck, hpieces, hpieces']

/-- A line of 65537 bytes. -/
def longLine : Bytes := List.replicate 65537 97

/-- In one piece it is an inline command; cut before its newline it is an error. -/
theorem parsing_of_longLine :
    ¬ ∀ stream, CutIndependent stream ∧ ∀ buf, StaysInside buf := by
  intro h
  have hlf : LF ∉ longLine := by
    rw [longLine, List.mem_replicate]
    exact fun hmem => absurd hmem.2 (by decide)
  have hlong : MAX_LINE < longLine.length := by
    rw [longLine, List.length_replicate]
    decide
  have hrefused := LongLinesRefused.of_cutIndependent (h (longLine ++ [LF])).1
  have hopen := hrefused [] _ (.refl _) (Or.inl ⟨longLine, [], rfl, hlf, hlong⟩)
  rw [← readCommand_tooBig_iff, readCommand_eq, readLine_append hlf] at hopen
  simp only [readArgs] at hopen
  have hhead : longLine.head? = some 97 := by
    rw [longLine, List.head?_replicate, if_neg (by decide)]
  rw [hhead, if_neg (by decide)] at hopen
  cases hopen

end Resp
end StrikeDB
