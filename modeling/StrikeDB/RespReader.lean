import StrikeDB.RespParser

/-!
# StrikeDB: what the parser makes of the beginning of a stream

A reader is `Frontal` when it decides from the bytes that it takes: a complete
item is complete whatever follows it, and a malformed one is malformed whatever
follows it, except that a line without an end may still end.

* `frontal_readCommand`: the command reader is of this kind.
* `readCommand_tooBig_iff`: it complains about a line without an end exactly
  when it starts on a line that has more than `MAX_LINE` bytes and no newline.
* `visits_append`, `visits_cut`: how such lines and lines that are too long but
  do end come from each other when the stream is cut.
-/

namespace StrikeDB
namespace Resp

/-- The buffer starts with a line that is longer than a line may be. -/
def Overlong (buf : Bytes) : Prop :=
  ∃ line rest, buf = line ++ LF :: rest ∧ LF ∉ line ∧ MAX_LINE < line.length

/-- The buffer is the beginning of a line, longer than a line may be. -/
def Unended (buf : Bytes) : Prop := LF ∉ buf ∧ MAX_LINE < buf.length

/-! ## Readers that take bytes from the front -/

/-- A reader that decides from the bytes it takes, whatever follows them, and
that complains about what follows only when a line does not end. -/
structure Frontal {α : Type} (read : Bytes → Read α) : Prop where
  done : ∀ {buf a rest}, read buf = .done a rest →
    ∃ taken, buf = taken ++ rest ∧ ∀ more, read (taken ++ more) = .done a more
  bad : ∀ {buf e}, read buf = .bad e → e ≠ .tooBigInline → ∀ more, read (buf ++ more) = .bad e

namespace Frontal

variable {α : Type} {read : Bytes → Read α}

/-- More bytes behind a complete item stay behind it. -/
theorem done_append
    (h : Frontal read) {buf rest : Bytes} {a : α} (hread : read buf = .done a rest)
    (more : Bytes) :
    read (buf ++ more) = .done a (rest ++ more) := by
  obtain ⟨taken, rfl, hall⟩ := h.done hread
  rw [List.append_assoc]
  exact hall _

theorem length_le
    (h : Frontal read) {buf rest : Bytes} {a : α} (hread : read buf = .done a rest) :
    rest.length ≤ buf.length := by
  obtain ⟨taken, rfl, _⟩ := h.done hread
  rw [List.length_append]
  omega

end Frontal

theorem frontal_readLine : Frontal readLine where
  done := by
    intro buf line rest hread
    rcases readLine_cases buf with ⟨line', rest', rfl, hnot, heq⟩ | ⟨_, _, heq⟩ | ⟨_, _, heq⟩
    · rw [heq, Read.done.injEq] at hread
      obtain ⟨rfl, rfl⟩ := hread
      refine ⟨line' ++ [LF], by simp, ?_⟩
      intro more
      rw [List.append_assoc]
      exact readLine_append hnot more
    · simp [heq] at hread
    · simp [heq] at hread
  bad := by
    intro buf e hread he
    rcases readLine_cases buf with ⟨_, _, _, _, heq⟩ | ⟨_, _, heq⟩ | ⟨_, _, heq⟩
    · simp [heq] at hread
    · simp [heq] at hread
    · rw [heq, Read.bad.injEq] at hread
      exact absurd hread.symm he

/-- `parse_len` complains in the words it was given. -/
theorem parse_len_error {hdr : Bytes} {what e : ProtocolError}
    (h : parse_len hdr what = .error e) : e = what := by
  unfold parse_len at h
  split at h
  · cases h; rfl
  · split at h
    · cases h
    · split at h
      · cases h; rfl
      · cases h

theorem bulkLen_error {hdr : Bytes} {e : ProtocolError} (h : bulkLen hdr = .error e) :
    e ≠ .tooBigInline := by
  unfold bulkLen at h
  split at h
  · next hlen =>
      cases h
      rw [parse_len_error hlen]
      decide
  · cases h; decide
  · split at h
    · cases h; decide
    · cases h

theorem head?_append_of_head? {buf : Bytes} {b : UInt8} (h : buf.head? = some b) (more : Bytes) :
    (buf ++ more).head? = some b := by
  rw [List.head?_append, h]
  rfl

/-- What the bulk reader makes of a buffer. -/
inductive BulkCase (buf : Bytes) : Read Bytes → Prop
  | empty (hbuf : buf = []) : BulkCase buf .more
  | noDollar {b tail} (hbuf : buf = b :: tail) (hb : b ≠ DOLLAR) :
      BulkCase buf (.bad .expectedBulk)
  | unread (hhead : buf.head? = some DOLLAR) (hline : readLine buf = .more) : BulkCase buf .more
  | unended (hhead : buf.head? = some DOLLAR) (hline : Unended buf) :
      BulkCase buf (.bad .tooBigInline)
  | badLen {line rest e} (hhead : buf.head? = some DOLLAR) (hline : readLine buf = .done line rest)
      (hlen : bulkLen (line.drop 1) = .error e) : BulkCase buf (.bad e)
  | short {line rest len} (hhead : buf.head? = some DOLLAR)
      (hline : readLine buf = .done line rest) (hlen : bulkLen (line.drop 1) = .ok len)
      (hshort : rest.length < len + 2) : BulkCase buf .more
  | noCrlf {line rest len} (hhead : buf.head? = some DOLLAR)
      (hline : readLine buf = .done line rest) (hlen : bulkLen (line.drop 1) = .ok len)
      (hlong : len + 2 ≤ rest.length) (hcrlf : (rest.drop len).take 2 ≠ [CR, LF]) :
      BulkCase buf (.bad .notTerminated)
  | done {line arg rest} (hhead : buf.head? = some DOLLAR)
      (hline : readLine buf = .done line (arg ++ CR :: LF :: rest))
      (hlen : bulkLen (line.drop 1) = .ok arg.length) :
      BulkCase buf (.done arg rest)

theorem split_crlf {rest : Bytes} {len : Nat} (h : (rest.drop len).take 2 = [CR, LF]) :
    rest.take len ++ CR :: LF :: rest.drop (len + 2) = rest := by
  have hdrop : [CR, LF] ++ rest.drop (len + 2) = rest.drop len := by
    rw [← h, ← List.drop_drop, List.take_append_drop]
  have hall := List.take_append_drop len rest
  rw [← hdrop] at hall
  exact hall

theorem readBulk_cases (buf : Bytes) : BulkCase buf (readBulk buf) := by
  cases buf with
  | nil => exact .empty rfl
  | cons b tail =>
      rw [readBulk]
      by_cases hb : b = DOLLAR
      · have hhead : (b :: tail).head? = some DOLLAR := by rw [hb]; rfl
        rw [if_neg (by simpa using hb)]
        rcases readLine_cases (b :: tail) with
          ⟨line, rest, _, _, hline⟩ | ⟨_, _, hline⟩ | ⟨hnot, hlong, hline⟩
        · simp only [hline]
          cases hlen : bulkLen (line.drop 1) with
          | error e => exact .badLen hhead hline hlen
          | ok len =>
              simp only
              by_cases hshort : rest.length < len + 2
              · rw [if_pos hshort]
                exact .short hhead hline hlen hshort
              · rw [if_neg hshort]
                by_cases hcrlf : (rest.drop len).take 2 = [CR, LF]
                · rw [if_neg (by simpa using hcrlf)]
                  rw [← split_crlf hcrlf] at hline
                  refine .done hhead hline ?_
                  rw [hlen, List.length_take, Nat.min_eq_left (by omega)]
                · rw [if_pos hcrlf]
                  exact .noCrlf hhead hline hlen (by omega) hcrlf
        · simp only [hline]
          exact .unread hhead hline
        · simp only [hline]
          exact .unended hhead ⟨hnot, hlong⟩
      · rw [if_pos hb]
        exact .noDollar rfl hb

theorem readBulk_append
    {line arg : Bytes} (hnot : LF ∉ line) (hhead : line.head? = some DOLLAR)
    (hlen : bulkLen (line.drop 1) = .ok arg.length) (rest : Bytes) :
    readBulk (line ++ LF :: (arg ++ CR :: LF :: rest)) = .done arg rest := by
  have hline := readLine_append hnot (arg ++ CR :: LF :: rest)
  rw [readBulk_of_line (head?_append_of_head? hhead _) hline, hlen]
  have hlong : ¬ (arg ++ CR :: LF :: rest).length < arg.length + 2 := by
    simp only [List.length_append, List.length_cons]
    omega
  simp only [if_neg hlong]
  simp

theorem frontal_readBulk : Frontal readBulk where
  done := by
    intro buf arg rest hread
    have hcase := readBulk_cases buf
    rw [hread] at hcase
    cases hcase with
    | @done line _ _ hhead hline hlen =>
        rcases readLine_cases buf with ⟨line', rest', rfl, hnot, heq⟩ | ⟨_, _, heq⟩ | ⟨_, _, heq⟩
        · rw [heq, Read.done.injEq] at hline
          obtain ⟨rfl, rfl⟩ := hline
          have hhead' : line'.head? = some DOLLAR := by
            cases line' with
            | nil => simp [DOLLAR, LF] at hhead
            | cons c line' => exact hhead
          refine ⟨line' ++ LF :: (arg ++ [CR, LF]), by simp, ?_⟩
          intro more
          have happ := readBulk_append hnot hhead' hlen more
          simpa using happ
        · simp [heq] at hline
        · simp [heq] at hline
  bad := by
    intro buf e hread he more
    have hcase := readBulk_cases buf
    rw [hread] at hcase
    cases hcase with
    | @noDollar b tail hbuf hb =>
        subst hbuf
        rw [List.cons_append, readBulk, if_pos hb]
    | unended _ _ => exact absurd rfl he
    | @badLen line rest _ hhead hline hlen =>
        rw [readBulk_of_line (head?_append_of_head? hhead more)
          (frontal_readLine.done_append hline more), hlen]
    | @noCrlf line rest len hhead hline hlen hlong hcrlf =>
        rw [readBulk_of_line (head?_append_of_head? hhead more)
          (frontal_readLine.done_append hline more), hlen]
        have hshort : ¬ (rest ++ more).length < len + 2 := by
          rw [List.length_append]
          omega
        have hsame : ((rest ++ more).drop len).take 2 = (rest.drop len).take 2 := by
          rw [List.drop_append_of_le_length (by omega), List.take_append_of_le_length]
          rw [List.length_drop]
          omega
        simp only [if_neg hshort, hsame, if_pos hcrlf]

theorem frontal_readBulks (count : Nat) : Frontal (readBulks count) := by
  induction count with
  | zero =>
      constructor
      · intro buf args rest hread
        rw [readBulks, Read.done.injEq] at hread
        obtain ⟨rfl, rfl⟩ := hread
        exact ⟨[], rfl, fun more => rfl⟩
      · intro buf e hread
        simp [readBulks] at hread
  | succ count ih =>
      constructor
      · intro buf args rest hread
        rw [readBulks] at hread
        cases hbulk : readBulk buf with
        | more => simp [hbulk] at hread
        | bad e => simp [hbulk] at hread
        | done arg rest₁ =>
            simp only [hbulk] at hread
            cases hrest : readBulks count rest₁ with
            | more => simp [hrest] at hread
            | bad e => simp [hrest] at hread
            | done args₁ rest₂ =>
                simp only [hrest, Read.done.injEq] at hread
                obtain ⟨rfl, rfl⟩ := hread
                obtain ⟨taken₁, rfl, hall₁⟩ := frontal_readBulk.done hbulk
                obtain ⟨taken₂, rfl, hall₂⟩ := ih.done hrest
                refine ⟨taken₁ ++ taken₂, by rw [List.append_assoc], ?_⟩
                intro more
                rw [readBulks, List.append_assoc, hall₁]
                simp only [hall₂]
      · intro buf e hread he more
        rw [readBulks] at hread ⊢
        cases hbulk : readBulk buf with
        | more => simp [hbulk] at hread
        | bad e' =>
            simp only [hbulk, Read.bad.injEq] at hread
            subst hread
            rw [frontal_readBulk.bad hbulk he]
        | done arg rest₁ =>
            simp only [hbulk] at hread
            rw [frontal_readBulk.done_append hbulk]
            cases hrest : readBulks count rest₁ with
            | more => simp [hrest] at hread
            | done args₁ rest₂ => simp [hrest] at hread
            | bad e' =>
                simp only [hrest, Read.bad.injEq] at hread
                subst hread
                simp only [ih.bad hrest he]

theorem frontal_readArgs (line : Bytes) : Frontal (readArgs line) := by
  have hdone : ∀ cmd : Command, Frontal fun rest => Read.done cmd rest := by
    intro cmd
    constructor
    · intro buf a rest hread
      rw [Read.done.injEq] at hread
      obtain ⟨rfl, rfl⟩ := hread
      exact ⟨[], rfl, fun more => rfl⟩
    · intro buf e hread
      simp at hread
  have hbad : ∀ e : ProtocolError, Frontal fun _ => (Read.bad e : Read Command) := by
    intro e
    constructor
    · intro buf a rest hread
      simp at hread
    · intro buf e' hread _ _
      exact hread
  unfold readArgs
  split
  · split
    · exact hbad _
    · exact hdone _
    · split
      · exact hbad _
      · exact frontal_readBulks _
  · exact hdone _

theorem frontal_readCommand : Frontal readCommand where
  done := by
    intro buf cmd rest hread
    rw [readCommand_eq] at hread
    cases hline : readLine buf with
    | more => simp [hline] at hread
    | bad e => simp [hline] at hread
    | done line rest₁ =>
        simp only [hline] at hread
        obtain ⟨taken₁, rfl, hall₁⟩ := frontal_readLine.done hline
        obtain ⟨taken₂, rfl, hall₂⟩ := (frontal_readArgs line).done hread
        refine ⟨taken₁ ++ taken₂, by rw [List.append_assoc], ?_⟩
        intro more
        rw [readCommand_eq, List.append_assoc, hall₁]
        exact hall₂ more
  bad := by
    intro buf e hread he more
    rw [readCommand_eq] at hread ⊢
    cases hline : readLine buf with
    | more => simp [hline] at hread
    | bad e' =>
        simp only [hline, Read.bad.injEq] at hread
        subst hread
        rw [frontal_readLine.bad hline he]
    | done line rest₁ =>
        simp only [hline] at hread
        rw [frontal_readLine.done_append hline]
        exact (frontal_readArgs line).bad hread he more

/-- A command takes at least the newline of its first line. -/
theorem readCommand_length_lt {buf rest : Bytes} {cmd : Command}
    (h : readCommand buf = .done cmd rest) : rest.length < buf.length := by
  rw [readCommand_eq] at h
  rcases readLine_cases buf with ⟨line, rest₁, rfl, _, hline⟩ | ⟨_, _, hline⟩ | ⟨_, _, hline⟩
  · simp only [hline] at h
    have := (frontal_readArgs line).length_le h
    simp only [List.length_append, List.length_cons]
    omega
  · simp [hline] at h
  · simp [hline] at h

/-! ## The lines that a reader starts on -/

/-- Reading `count` bulk strings, the reader starts on a header where `P` holds. -/
def VisitsBulk (P : Bytes → Prop) : Nat → Bytes → Prop
  | 0, _ => False
  | count + 1, buf =>
      (buf.head? = some DOLLAR ∧ P buf) ∨
        ∃ arg rest, readBulk buf = .done arg rest ∧ VisitsBulk P count rest

/-- Reading one command, the reader starts on a line where `P` holds. -/
def Visits (P : Bytes → Prop) (buf : Bytes) : Prop :=
  P buf ∨ ∃ line rest count, readLine buf = .done line rest ∧ line.head? = some STAR ∧
    parse_len (line.drop 1) .badArrayHeader = .ok (some count) ∧ count ≤ MAX_ARGS ∧
    VisitsBulk P count rest

theorem readBulk_tooBig_iff (buf : Bytes) :
    readBulk buf = .bad .tooBigInline ↔ buf.head? = some DOLLAR ∧ Unended buf := by
  constructor
  · intro h
    have hcase := readBulk_cases buf
    rw [h] at hcase
    cases hcase with
    | unended hhead hline => exact ⟨hhead, hline⟩
    | badLen hhead hline hlen => exact absurd rfl (bulkLen_error hlen)
  · rintro ⟨hhead, hnot, hlong⟩
    rcases readLine_cases buf with ⟨_, _, hbuf, _, _⟩ | ⟨_, hshort, _⟩ | ⟨_, _, hline⟩
    · rw [hbuf] at hnot
      simp at hnot
    · omega
    · cases buf with
      | nil => simp at hhead
      | cons b tail =>
          rw [List.head?_cons, Option.some.injEq] at hhead
          rw [readBulk, if_neg (by simpa using hhead), hline]

theorem readBulks_tooBig_iff (count : Nat) (buf : Bytes) :
    readBulks count buf = .bad .tooBigInline ↔ VisitsBulk Unended count buf := by
  induction count generalizing buf with
  | zero => simp [readBulks, VisitsBulk]
  | succ count ih =>
      rw [readBulks, VisitsBulk, ← readBulk_tooBig_iff]
      cases hbulk : readBulk buf with
      | more => simp
      | bad e => simp
      | done arg rest =>
          simp only [Read.done.injEq, reduceCtorEq, false_or]
          constructor
          · intro h
            refine ⟨arg, rest, ⟨rfl, rfl⟩, (ih rest).mp ?_⟩
            cases hrest : readBulks count rest with
            | more => simp [hrest] at h
            | done _ _ => simp [hrest] at h
            | bad e => simpa [hrest] using h
          · rintro ⟨_, _, ⟨rfl, rfl⟩, hvisit⟩
            simp only [(ih rest).mpr hvisit]

/-- The reader complains about a line without an end exactly where it meets one. -/
theorem readCommand_tooBig_iff (buf : Bytes) :
    readCommand buf = .bad .tooBigInline ↔ Visits Unended buf := by
  rw [readCommand_eq, Visits]
  rcases readLine_cases buf with
    ⟨line, rest, hbuf, hnot, hline⟩ | ⟨hnot, hshort, hline⟩ | ⟨hnot, hlong, hline⟩
  · have hended : ¬ Unended buf := by
      rintro ⟨h, _⟩
      rw [hbuf] at h
      simp at h
    simp only [hline, hended, false_or, Read.done.injEq]
    constructor
    · intro h
      unfold readArgs at h
      split at h
      · next hstar =>
          split at h
          · next e hlen =>
              rw [Read.bad.injEq] at h
              rw [parse_len_error hlen] at h
              simp at h
          · simp at h
          · next count hlen =>
              split at h
              · simp at h
              · exact ⟨line, rest, count, ⟨rfl, rfl⟩, hstar, hlen, by omega,
                  (readBulks_tooBig_iff _ _).mp h⟩
      · simp at h
    · rintro ⟨_, _, count, ⟨rfl, rfl⟩, hstar, hlen, hcount, hvisit⟩
      rw [readArgs, if_pos hstar, hlen]
      simp only [if_neg (Nat.not_lt.mpr hcount)]
      exact (readBulks_tooBig_iff _ _).mpr hvisit
  · simp only [hline, reduceCtorEq, false_iff, false_and, exists_false, or_false]
    rintro ⟨_, hlong⟩
    omega
  · simp only [hline, true_iff]
    exact Or.inl ⟨hnot, hlong⟩

/-! ## Long lines -/

/-- A long line without an end stays one, or turns out to be a long line. -/
theorem Unended.append {buf : Bytes} (h : Unended buf) (more : Bytes) :
    Unended (buf ++ more) ∨ Overlong (buf ++ more) := by
  obtain ⟨hnot, hlong⟩ := h
  by_cases hmem : LF ∈ more
  · obtain ⟨line, rest, rfl, hline⟩ := List.eq_append_cons_of_mem hmem
    refine Or.inr ⟨buf ++ line, rest, by simp, ?_, ?_⟩
    · simp [hnot, hline]
    · rw [List.length_append]
      omega
  · refine Or.inl ⟨by simp [hnot, hmem], ?_⟩
    rw [List.length_append]
    omega

theorem visitsBulk_append
    (count : Nat) {buf : Bytes} (h : VisitsBulk Unended count buf) (more : Bytes) :
    VisitsBulk Unended count (buf ++ more) ∨ VisitsBulk Overlong count (buf ++ more) := by
  induction count generalizing buf with
  | zero => exact h.elim
  | succ count ih =>
      rcases h with ⟨hhead, hopen⟩ | ⟨arg, rest, hbulk, hvisit⟩
      · rcases hopen.append more with hopen | hlong
        · exact Or.inl (Or.inl ⟨head?_append_of_head? hhead more, hopen⟩)
        · exact Or.inr (Or.inl ⟨head?_append_of_head? hhead more, hlong⟩)
      · have hbulk' := frontal_readBulk.done_append hbulk more
        rcases ih hvisit with hvisit | hvisit
        · exact Or.inl (Or.inr ⟨arg, _, hbulk', hvisit⟩)
        · exact Or.inr (Or.inr ⟨arg, _, hbulk', hvisit⟩)

/-- A complaint about a line without an end stands, unless the line ends. -/
theorem visits_append {buf : Bytes} (h : Visits Unended buf) (more : Bytes) :
    Visits Unended (buf ++ more) ∨ Visits Overlong (buf ++ more) := by
  rcases h with hopen | ⟨line, rest, count, hline, hstar, hlen, hcount, hvisit⟩
  · rcases hopen.append more with hopen | hlong
    · exact Or.inl (Or.inl hopen)
    · exact Or.inr (Or.inl hlong)
  · have hline' := frontal_readLine.done_append hline more
    rcases visitsBulk_append count hvisit more with hvisit | hvisit
    · exact Or.inl (Or.inr ⟨line, _, count, hline', hstar, hlen, hcount, hvisit⟩)
    · exact Or.inr (Or.inr ⟨line, _, count, hline', hstar, hlen, hcount, hvisit⟩)

theorem visitsBulk_cut
    (count : Nat) {buf : Bytes} (h : VisitsBulk Overlong count buf) :
    ∃ front back, buf = front ++ back ∧ VisitsBulk Unended count front := by
  induction count generalizing buf with
  | zero => exact h.elim
  | succ count ih =>
      rcases h with ⟨hhead, line, rest, rfl, hnot, hlong⟩ | ⟨arg, rest, hbulk, hvisit⟩
      · refine ⟨line, LF :: rest, rfl, Or.inl ⟨?_, hnot, hlong⟩⟩
        cases line with
        | nil => simp at hlong
        | cons c line => exact hhead
      · obtain ⟨taken, rfl, hall⟩ := frontal_readBulk.done hbulk
        obtain ⟨front, back, rfl, hvisit'⟩ := ih hvisit
        exact ⟨taken ++ front, back, by rw [List.append_assoc],
          Or.inr ⟨arg, front, hall front, hvisit'⟩⟩

/-- Cut off inside a line that is too long, the buffer is complained about. -/
theorem visits_cut {buf : Bytes} (h : Visits Overlong buf) :
    ∃ front back, buf = front ++ back ∧ Visits Unended front := by
  rcases h with ⟨line, rest, rfl, hnot, hlong⟩ | ⟨line, rest, count, hline, hstar, hlen, hcount, hv⟩
  · exact ⟨line, LF :: rest, rfl, Or.inl ⟨hnot, hlong⟩⟩
  · obtain ⟨taken, rfl, hall⟩ := frontal_readLine.done hline
    obtain ⟨front, back, rfl, hv'⟩ := visitsBulk_cut count hv
    exact ⟨taken ++ front, back, by rw [List.append_assoc],
      Or.inr ⟨line, front, count, hall front, hstar, hlen, hcount, hv'⟩⟩

end Resp
end StrikeDB
