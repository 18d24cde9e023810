import StrikeDB.Value

/-!
# StrikeDB: the command parser

`try_parse` of the protocol crate, once as the source has it, with indices into
the buffer and the panics of slices that run past its end, and once as a reader
that takes bytes from the front (`readCommand`).

`try_parse_eq`: the two agree, so `try_parse` never indexes outside the buffer
and never consumes more than there is.
-/

namespace StrikeDB
namespace Resp

/-- The protocol errors of the parser. -/
inductive ProtocolError where
  | tooBigInline
  | badArrayHeader
  | invalidMultibulk
  | expectedBulk
  | badBulkLen
  | invalidBulk
  | notTerminated
deriving DecidableEq, Repr

def ProtocolError.text : ProtocolError → String
  | .tooBigInline => "too big inline request"
  | .badArrayHeader => "bad array header"
  | .invalidMultibulk => "invalid multibulk length"
  | .expectedBulk => "expected bulk string"
  | .badBulkLen => "bad bulk len"
  | .invalidBulk => "invalid bulk length"
  | .notTerminated => "bulk string not terminated by CRLF"

/-- How a call can fail: with an error, or by an index outside of a slice. -/
inductive Fault where
  | invalid (e : ProtocolError)
  | panic
deriving DecidableEq, Repr

/-- Largest bulk string accepted from a client. -/
def MAX_BULK_LEN : Nat := 512 * 1024 * 1024
/-- Largest multibulk argument count accepted from a client. -/
def MAX_ARGS : Nat := 1024 * 1024
/-- Longest header or inline line accepted before the terminating newline. -/
def MAX_LINE : Nat := 64 * 1024

/-- A command: its arguments, the name first. -/
abbrev Command := List Bytes

def CR : UInt8 := 13
def LF : UInt8 := 10
def SP : UInt8 := 32
def STAR : UInt8 := 42
def DOLLAR : UInt8 := 36

/-! ## Lengths -/

/-- `char::is_whitespace`. -/
def isWhitespace (c : Char) : Bool :=
  let n := c.toNat
  (9 ≤ n && n ≤ 13) || n = 32 || n = 0x85 || n = 0xA0 || n = 0x1680 ||
    (0x2000 ≤ n && n ≤ 0x200A) || n = 0x2028 || n = 0x2029 || n = 0x202F || n = 0x205F ||
    n = 0x3000

/-- `str::trim`. -/
def trim (s : List Char) : List Char :=
  ((s.dropWhile isWhitespace).reverse.dropWhile isWhitespace).reverse

/-- The digits of an `i64` and whether a minus sign stands in front of them. -/
def splitSign : List Char → Bool × List Char
  | '-' :: digits => (true, digits)
  | '+' :: digits => (false, digits)
  | digits => (false, digits)

/-- `str::parse::<i64>`. -/
def parse_i64 (s : List Char) : Option Int :=
  let (neg, digits) := splitSign s
  if digits = [] ∨ ¬ digits.all Char.isDigit then none
  else
    let n : Nat := digits.foldl (fun n c => 10 * n + (c.toNat - 48)) 0
    let i : Int := if neg then -(n : Int) else n
    if -2 ^ 63 ≤ i ∧ i < 2 ^ 63 then some i else none

/-- Drop a trailing carriage return. -/
def stripCr (line : Bytes) : Bytes :=
  if line.getLast? = some CR then line.dropLast else line

/-- Parse a `*` or `$` length header without its prefix; `-1` means null. -/
def parse_len (hdr : Bytes) (what : ProtocolError) : Except ProtocolError (Option Nat) :=
  match (Value.fromUtf8 (stripCr hdr)).bind fun s => parse_i64 (trim s.toList) with
  | none => .error what
  | some n =>
      if n = -1 then .ok none
      else if n < 0 then .error what
      else .ok (some n.toNat)

/-! ## The parser with indices -/

/-- `&buf[from..to]`. -/
def slice (buf : Bytes) (lo hi : Nat) : Except Fault Bytes :=
  if lo ≤ hi ∧ hi ≤ buf.length then .ok ((buf.drop lo).take (hi - lo)) else .error .panic

/-- `buf[i]`. -/
def byteAt (buf : Bytes) (i : Nat) : Except Fault UInt8 :=
  match buf[i]? with
  | some b => .ok b
  | none => .error .panic

def invalid {α : Type} (e : ProtocolError) : Except Fault α := .error (.invalid e)

/-- Index of the newline that ends the line starting at `lo`, if it has arrived. -/
def find_line_end (buf : Bytes) (lo : Nat) : Except Fault (Option Nat) := do
  let rest ← slice buf lo buf.length
  match rest.findIdx? (· = LF) with
  | some i => .ok (some (lo + i))
  | none => if buf.length - lo > MAX_LINE then invalid .tooBigInline else .ok none

/-- `parse_len` in the place of a `?`. -/
def parseLen (hdr : Bytes) (what : ProtocolError) : Except Fault (Option Nat) :=
  match parse_len hdr what with
  | .error e => invalid e
  | .ok n => .ok n

/-- The loop over the arguments.  The checked additions of the source do not
overflow: a length is at most `MAX_BULK_LEN`, and a buffer is shorter than 2^63. -/
def argsLoop (buf : Bytes) : Nat → Nat → Command → Except Fault (Option (Command × Nat))
  | 0, pos, args => .ok (some (args, pos))
  | count + 1, pos, args =>
      if pos ≥ buf.length then .ok none
      else do
        let b ← byteAt buf pos
        if b ≠ DOLLAR then invalid .expectedBulk
        else
          match ← find_line_end buf pos with
          | none => .ok none
          | some bnl =>
              let hdr ← slice buf (pos + 1) bnl
              match ← parseLen hdr .badBulkLen with
              | none => invalid .invalidBulk
              | some len =>
                  if len > MAX_BULK_LEN then invalid .invalidBulk
                  else
                    let start := bnl + 1
                    let stop := start + len + 2
                    if stop > buf.length then .ok none
                    else do
                      let crlf ← slice buf (start + len) stop
                      if crlf ≠ [CR, LF] then invalid .notTerminated
                      else do
                        let arg ← slice buf start (start + len)
                        argsLoop buf count stop (args ++ [arg])

/-- The words of an inline command. -/
def inlineArgs (line : Bytes) : Command :=
  ((stripCr line).splitOn SP).filter fun w => !w.isEmpty

/-- Try to parse one command from the front of `buf`: the command and how many
bytes it takes, or `none` when more bytes are needed. -/
def try_parse (buf : Bytes) : Except Fault (Option (Command × Nat)) :=
  if buf = [] then .ok none
  else do
    let b ← byteAt buf 0
    match ← find_line_end buf 0 with
    | none => .ok none
    | some nl =>
        if b = STAR then do
          let hdr ← slice buf 1 nl
          match ← parseLen hdr .badArrayHeader with
          | none => .ok (some ([], nl + 1))
          | some count =>
              if count > MAX_ARGS then invalid .invalidMultibulk
              else argsLoop buf count (nl + 1) []
        else do
          let line ← slice buf 0 nl
          .ok (some (inlineArgs line, nl + 1))

/-! ## The parser as a reader -/

/-- What a reader makes of the bytes at hand. -/
inductive Read (α : Type) where
  | done (a : α) (rest : Bytes)
  | more
  | bad (e : ProtocolError)
deriving DecidableEq

/-- The line at the front, without its newline. -/
def readLine (buf : Bytes) : Read Bytes :=
  match buf.findIdx? (· = LF) with
  | some i => .done (buf.take i) (buf.drop (i + 1))
  | none => if buf.length > MAX_LINE then .bad .tooBigInline else .more

/-- The length of a bulk string from its header. -/
def bulkLen (hdr : Bytes) : Except ProtocolError Nat :=
  match parse_len hdr .badBulkLen with
  | .error e => .error e
  | .ok none => .error .invalidBulk
  | .ok (some len) => if len > MAX_BULK_LEN then .error .invalidBulk else .ok len

/-- One bulk string. -/
def readBulk (buf : Bytes) : Read Bytes :=
  match buf with
  | [] => .more
  | b :: _ =>
      if b ≠ DOLLAR then .bad .expectedBulk
      else
        match readLine buf with
        | .more => .more
        | .bad e => .bad e
        | .done line rest =>
            match bulkLen (line.drop 1) with
            | .error e => .bad e
            | .ok len =>
                if rest.length < len + 2 then .more
                else if (rest.drop len).take 2 ≠ [CR, LF] then .bad .notTerminated
                else .done (rest.take len) (rest.drop (len + 2))

def readBulks : Nat → Bytes → Read Command
  | 0, buf => .done [] buf
  | count + 1, buf =>
      match readBulk buf with
      | .more => .more
      | .bad e => .bad e
      | .done arg rest =>
          match readBulks count rest with
          | .more => .more
          | .bad e => .bad e
          | .done args rest' => .done (arg :: args) rest'

/-- One command. -/
def readCommand (buf : Bytes) : Read Command :=
  match readLine buf with
  | .more => .more
  | .bad e => .bad e
  | .done line rest =>
      if line.head? = some STAR then
        match parse_len (line.drop 1) .badArrayHeader with
        | .error e => .bad e
        | .ok none => .done [] rest
        | .ok (some count) =>
            if count > MAX_ARGS then .bad .invalidMultibulk else readBulks count rest
      else .done (inlineArgs line) rest

/-! ## Lines -/

theorem findIdx?_lf {buf : Bytes} (h : LF ∉ buf) : buf.findIdx? (· = LF) = none := by
  rw [List.findIdx?_eq_none_iff]
  intro b hb
  simp only [decide_eq_false_iff_not]
  rintro rfl
  exact h hb

theorem readLine_append {line : Bytes} (h : LF ∉ line) (rest : Bytes) :
    readLine (line ++ LF :: rest) = .done line rest := by
  have hfind : (line ++ LF :: rest).findIdx? (· = LF) = some line.length := by
    rw [List.findIdx?_append, findIdx?_lf h]
    simp [List.findIdx?_cons]
  simp [readLine, hfind]

/-- What the line reader makes of a buffer. -/
theorem readLine_cases (buf : Bytes) :
    (∃ line rest, buf = line ++ LF :: rest ∧ LF ∉ line ∧ readLine buf = .done line rest) ∨
    (LF ∉ buf ∧ buf.length ≤ MAX_LINE ∧ readLine buf = .more) ∨
    (LF ∉ buf ∧ MAX_LINE < buf.length ∧ readLine buf = .bad .tooBigInline) := by
  by_cases hmem : LF ∈ buf
  · obtain ⟨line, rest, rfl, hnot⟩ := List.eq_append_cons_of_mem hmem
    exact Or.inl ⟨line, rest, rfl, hnot, readLine_append hnot rest⟩
  · by_cases hlong : MAX_LINE < buf.length
    · exact Or.inr (Or.inr ⟨hmem, hlong, by simp [readLine, findIdx?_lf hmem, hlong]⟩)
    · exact Or.inr (Or.inl ⟨hmem, by omega, by simp [readLine, findIdx?_lf hmem, hlong]⟩)

/-- The reader on a buffer that starts with `$` and a line. -/
theorem readBulk_of_line
    {buf line rest : Bytes} (hhead : buf.head? = some DOLLAR)
    (hline : readLine buf = .done line rest) :
    readBulk buf =
      match bulkLen (line.drop 1) with
      | .error e => .bad e
      | .ok len =>
          if rest.length < len + 2 then .more
          else if (rest.drop len).take 2 ≠ [CR, LF] then .bad .notTerminated
          else .done (rest.take len) (rest.drop (len + 2)) := by
  cases buf with
  | nil => simp at hhead
  | cons b tail =>
      rw [List.head?_cons, Option.some.injEq] at hhead
      rw [readBulk, if_neg (by simpa using hhead), hline]

/-- What the command reader does once it has the first line. -/
def readArgs (line rest : Bytes) : Read Command :=
  if line.head? = some STAR then
    match parse_len (line.drop 1) .badArrayHeader with
    | .error e => .bad e
    | .ok none => .done [] rest
    | .ok (some count) =>
        if count > MAX_ARGS then .bad .invalidMultibulk else readBulks count rest
  else .done (inlineArgs line) rest

theorem readCommand_eq (buf : Bytes) :
    readCommand buf =
      match readLine buf with
      | .more => .more
      | .bad e => .bad e
      | .done line rest => readArgs line rest := rfl

/-! ## The two agree -/

/-- The result of `try_parse` that a reading amounts to. -/
def Read.result (length : Nat) : Read Command → Except Fault (Option (Command × Nat))
  | .done cmd rest => .ok (some (cmd, length - rest.length))
  | .more => .ok none
  | .bad e => .error (.invalid e)

theorem slice_ok {buf : Bytes} {lo hi : Nat} (h : lo ≤ hi) (h' : hi ≤ buf.length) :
    slice buf lo hi = .ok ((buf.drop lo).take (hi - lo)) := by
  rw [slice, if_pos ⟨h, h'⟩]

/-- Where the line at `pos` ends, read from the bytes behind `pos`. -/
theorem find_line_end_eq {buf : Bytes} {pos : Nat} (h : pos ≤ buf.length) :
    find_line_end buf pos =
      match readLine (buf.drop pos) with
      | .done line _ => .ok (some (pos + line.length))
      | .more => .ok none
      | .bad e => .error (.invalid e) := by
  have hall : (buf.drop pos).take (buf.length - pos) = buf.drop pos := by
    rw [← List.length_drop, List.take_length]
  simp only [find_line_end, slice_ok h le_rfl, hall, readLine, bind, Except.bind, invalid]
  cases hfind : (buf.drop pos).findIdx? (· = LF) with
  | none =>
      simp only [List.length_drop]
      split <;> rfl
  | some i =>
      have hlt : i < (buf.drop pos).length := by
        obtain ⟨hlt, _⟩ := List.findIdx?_eq_some_iff_getElem.mp hfind
        exact hlt
      have hmin : min i (buf.length - pos) = i := by
        rw [List.length_drop] at hlt
        omega
      simp [hmin]


theorem byteAt_drop {buf tail : Bytes} {pos : Nat} {b : UInt8} (h : buf.drop pos = b :: tail) :
    byteAt buf pos = .ok b := by
  have hget : buf[pos]? = some b := by
    rw [← List.head?_drop, h]
    rfl
  rw [byteAt, hget]

/-- What a loop over bulk strings answers when the reader reads this. -/
def Read.loopResult (length : Nat) (args : Command) :
    Read Command → Except Fault (Option (Command × Nat))
  | .done found rest => .ok (some (args ++ found, length - rest.length))
  | .more => .ok none
  | .bad e => .error (.invalid e)

/-- A slice of the line at `pos`, without its first byte. -/
theorem slice_header
    {buf line rest : Bytes} {pos : Nat} (hpos : pos ≤ buf.length)
    (h : buf.drop pos = line ++ LF :: rest) (hne : line ≠ []) :
    slice buf (pos + 1) (pos + line.length) = .ok (line.drop 1) := by
  have hlen := congrArg List.length h
  simp only [List.length_drop, List.length_append, List.length_cons] at hlen
  have hone : 1 ≤ line.length := List.length_pos_iff.mpr hne
  rw [slice_ok (by omega) (by omega), ← List.drop_drop, h, List.drop_append_of_le_length hone]
  have hcut : pos + line.length - (pos + 1) = (line.drop 1).length := by
    rw [List.length_drop]
    omega
  rw [hcut, List.take_left]

theorem argsLoop_eq
    (buf : Bytes) (count : Nat) {pos : Nat} (hpos : pos ≤ buf.length) (args : Command) :
    argsLoop buf count pos args =
      (readBulks count (buf.drop pos)).loopResult buf.length args := by
  induction count generalizing pos args with
  | zero =>
      have : buf.length - (buf.length - pos) = pos := by omega
      simp [argsLoop, readBulks, Read.loopResult, this]
  | succ count ih =>
      rw [argsLoop, readBulks]
      by_cases hend : pos ≥ buf.length
      · rw [if_pos hend, List.drop_of_length_le hend]
        simp [readBulk, Read.loopResult]
      rw [if_neg hend]
      obtain ⟨b, tail, hdrop⟩ : ∃ b tail, buf.drop pos = b :: tail := by
        cases hdrop : buf.drop pos with
        | nil =>
            have := congrArg List.length hdrop
            rw [List.length_drop, List.length_nil] at this
            omega
        | cons b tail => exact ⟨b, tail, rfl⟩
      rw [byteAt_drop hdrop]
      simp only [bind, Except.bind]
      by_cases hb : b = DOLLAR
      swap
      · rw [if_pos hb, hdrop, readBulk, if_pos hb]
        rfl
      rw [if_neg (by simpa using hb), find_line_end_eq hpos]
      have hhead : (buf.drop pos).head? = some DOLLAR := by rw [hdrop, hb]; rfl
      rcases readLine_cases (buf.drop pos) with
        ⟨line, rest, hbuf, hnot, hline⟩ | ⟨_, _, hline⟩ | ⟨hnot, hlong, hline⟩
      · have hne : line ≠ [] := by
          rintro rfl
          rw [hbuf] at hhead
          simp [LF, DOLLAR] at hhead
        rw [hline, readBulk_of_line hhead hline]
        simp only [slice_header hpos hbuf hne, parseLen, bulkLen]
        cases hlen : parse_len (line.drop 1) .badBulkLen with
        | error e => rfl
        | ok n =>
            cases n with
            | none => rfl
            | some len =>
                simp only
                by_cases hmax : len > MAX_BULK_LEN
                · rw [if_pos hmax, if_pos hmax]
                  rfl
                rw [if_neg hmax, if_neg hmax]
                have hlength := congrArg List.length hbuf
                simp only [List.length_drop, List.length_append, List.length_cons] at hlength
                have hrest : buf.drop (pos + line.length + 1) = rest := by
                  rw [Nat.add_assoc, ← List.drop_drop, hbuf]
                  have hcons : line ++ LF :: rest = (line ++ [LF]) ++ rest := by simp
                  rw [hcons, List.drop_left' (by simp)]
                simp only
                by_cases hshort : rest.length < len + 2
                · rw [if_pos hshort, if_pos (by omega)]
                  rfl
                rw [if_neg hshort, if_neg (by omega), slice_ok (by omega) (by omega),
                  ← List.drop_drop, hrest]
                have htwo : pos + line.length + 1 + len + 2 - (pos + line.length + 1 + len) = 2 := by
                  omega
                simp only [htwo]
                by_cases hcrlf : (rest.drop len).take 2 = [CR, LF]
                swap
                · rw [if_pos hcrlf, if_pos hcrlf]
                  rfl
                have harg : pos + line.length + 1 + len - (pos + line.length + 1) = len := by omega
                rw [if_neg (by simpa using hcrlf), if_neg (by simpa using hcrlf),
                  slice_ok (by omega) (by omega), hrest, harg]
                simp only
                rw [ih (by omega), Nat.add_assoc (pos + line.length + 1), ← List.drop_drop, hrest]
                cases readBulks count (rest.drop (len + 2)) with
                | more => rfl
                | bad e => rfl
                | done found rest' => simp [Read.loopResult]
      · rw [hline, hdrop, readBulk, if_neg (by simpa using hb), ← hdrop, hline]
        rfl
      · rw [hline, hdrop, readBulk, if_neg (by simpa using hb), ← hdrop, hline]
        rfl

/-- The parser with indices is the reader: it never panics, and what it consumes
is the part of the buffer in front of what the reader leaves. -/
theorem try_parse_eq (buf : Bytes) :
    try_parse buf = (readCommand buf).result buf.length := by
  unfold try_parse
  by_cases hnil : buf = []
  · subst hnil
    rfl
  rw [if_neg hnil]
  obtain ⟨b, tail, rfl⟩ := List.exists_cons_of_ne_nil hnil
  have hbyte : byteAt (b :: tail) 0 = .ok b := rfl
  rw [hbyte, find_line_end_eq (Nat.zero_le _), readCommand_eq]
  simp only [bind, Except.bind, List.drop_zero, Nat.zero_add]
  rcases readLine_cases (b :: tail) with
    ⟨line, rest, hbuf, hnot, hline⟩ | ⟨_, _, hline⟩ | ⟨hnot, hlong, hline⟩
  · have hlength := congrArg List.length hbuf
    simp only [List.length_append, List.length_cons] at hlength
    have hconsumed : (b :: tail).length - rest.length = line.length + 1 := by
      rw [List.length_cons]
      omega
    have hdone : ∀ cmd : Command, (Except.ok (some (cmd, line.length + 1)) :
        Except Fault (Option (Command × Nat))) =
          (Read.done cmd rest).result (b :: tail).length := by
      intro cmd
      rw [Read.result, hconsumed]
    simp only [hline, readArgs]
    by_cases hstar : b = STAR
    · have hne : line ≠ [] := by
        rintro rfl
        rw [List.nil_append, List.cons.injEq] at hbuf
        rw [hbuf.1] at hstar
        simp [LF, STAR] at hstar
      have hhead : line.head? = some STAR := by
        obtain ⟨c, line', rfl⟩ := List.exists_cons_of_ne_nil hne
        rw [List.cons_append, List.cons.injEq] at hbuf
        rw [← hbuf.1, hstar]
        rfl
      have hdrop : (b :: tail).drop 0 = line ++ LF :: rest := hbuf
      have hslice := slice_header (Nat.zero_le _) hdrop hne
      rw [Nat.zero_add, Nat.zero_add] at hslice
      rw [if_pos hstar, if_pos hhead, hslice]
      simp only [parseLen]
      cases parse_len (line.drop 1) .badArrayHeader with
      | error e => rfl
      | ok n =>
          cases n with
          | none => exact hdone []
          | some count =>
              simp only
              by_cases hcount : count > MAX_ARGS
              · rw [if_pos hcount, if_pos hcount]
                rfl
              · rw [if_neg hcount, if_neg hcount, argsLoop_eq _ _ (by rw [List.length_cons]; omega)]
                have hrest : (b :: tail).drop (line.length + 1) = rest := by
                  have hcons : line ++ LF :: rest = (line ++ [LF]) ++ rest := by simp
                  rw [hbuf, hcons, List.drop_left' (by simp)]
                rw [hrest]
                cases readBulks count rest with
                | more => rfl
                | bad e => rfl
                | done found rest' => rfl
    · have hhead : line.head? ≠ some STAR := by
        intro hhead
        obtain ⟨c, line', rfl⟩ : ∃ c line', line = c :: line' := by
          cases line with
          | nil => simp at hhead
          | cons c line' => exact ⟨c, line', rfl⟩
        rw [List.cons_append, List.cons.injEq] at hbuf
        rw [List.head?_cons, Option.some.injEq] at hhead
        exact hstar (hbuf.1.trans hhead)
      rw [if_neg hstar, if_neg hhead, slice_ok (Nat.zero_le _) (by omega)]
      simp only [List.drop_zero, Nat.sub_zero]
      have htake : (b :: tail).take line.length = line := by
        rw [hbuf, List.take_left]
      rw [htake]
      exact hdone _
  · simp only [hline]
    rfl
  · simp only [hline]
    rfl

end Resp
end StrikeDB
