import Mathlib.Data.List.DropRight
import StrikeDB.RespEncode
import StrikeDB.RespReader

/-!
# StrikeDB: requests on the wire

A client sends a command as an array of bulk strings.  `try_parse` of the event
loop and the blocking `read_command` both give the arguments back.

**Results.**
* `parse_len_natText`: a length in decimal is read back.
* `readCommand_request`: the reader takes exactly the encoding.
* `requests_round_trip`: so does `try_parse`, which asks for more on every proper
  beginning of it, and so does `read_command`.
-/

namespace StrikeDB
namespace Resp

/-- The command as a client sends it. -/
def request (args : Command) : Resp := .array (args.map .bulk)

/-! ## The blocking reader -/

/-- How the blocking reader fails. -/
inductive ReadFault where
  | invalid (e : ProtocolError)
  | unexpectedEof
deriving DecidableEq

/-- `BufRead::read_until` for a newline: the bytes up to it, with it, and what
follows them. -/
def read_until : Bytes → Bytes × Bytes
  | [] => ([], [])
  | b :: s => if b = LF then ([b], s) else (b :: (read_until s).1, (read_until s).2)

/-- `Read::read_exact`. -/
def read_exact (n : Nat) (s : Bytes) : Except ReadFault (Bytes × Bytes) :=
  if n ≤ s.length then .ok (s.take n, s.drop n) else .error .unexpectedEof

/-- Pop the newlines and carriage returns at the end. -/
def popEnds (line : Bytes) : Bytes := line.rdropWhile fun b => b = LF ∨ b = CR

/-- One bulk string: its header, its bytes and the two behind them, which are
dropped without a look. -/
def read_bulk (s : Bytes) : Except ReadFault (Bytes × Bytes) :=
  let hdr := popEnds (read_until s).1
  if hdr.head? ≠ some DOLLAR then .error (.invalid .expectedBulk)
  else
    match bulkLen (hdr.drop 1) with
    | .error e => .error (.invalid e)
    | .ok len =>
        match read_exact (len + 2) (read_until s).2 with
        | .error e => .error e
        | .ok (buf, rest) => .ok (buf.take len, rest)

def read_bulks : Nat → Bytes → Except ReadFault (Command × Bytes)
  | 0, s => .ok ([], s)
  | count + 1, s =>
      match read_bulk s with
      | .error e => .error e
      | .ok (arg, rest) =>
          match read_bulks count rest with
          | .error e => .error e
          | .ok (args, rest') => .ok (arg :: args, rest')

/-- Read one command from the stream; `none` when it is closed. -/
def read_command (s : Bytes) : Except ReadFault (Option Command × Bytes) :=
  let first := popEnds (read_until s).1
  let rest := (read_until s).2
  if (read_until s).1 = [] then .ok (none, rest)
  else if first = [] then .ok (some [], rest)
  else if first.head? = some STAR then
    match parse_len (first.drop 1) .badArrayHeader with
    | .error e => .error (.invalid e)
    | .ok none => .ok (some [], rest)
    | .ok (some count) =>
        if count > MAX_ARGS then .error (.invalid .invalidMultibulk)
        else
          match read_bulks count rest with
          | .error e => .error e
          | .ok (args, rest') => .ok (some args, rest')
  else .ok (some ((first.splitOn SP).filter fun w => !w.isEmpty), rest)

/-! ## Lengths -/

/-- The character of an ASCII byte. -/
def asciiChar (b : UInt8) : Char := Char.ofNat b.toNat

theorem asciiChar_digit {b : UInt8} (h : Text.isDigit b) :
    (asciiChar b).toNat = b.toNat ∧ (asciiChar b).isDigit = true ∧
      isWhitespace (asciiChar b) = false ∧ String.utf8EncodeChar (asciiChar b) = [b] := by
  simp only [Text.isDigit, Bool.and_eq_true, decide_eq_true_eq] at h
  obtain ⟨hlo, hhi⟩ := h
  have hall : ∀ n : Fin 10, (asciiChar (UInt8.ofNat (48 + n))).toNat = 48 + n ∧
      (asciiChar (UInt8.ofNat (48 + n))).isDigit = true ∧
      isWhitespace (asciiChar (UInt8.ofNat (48 + n))) = false ∧
      String.utf8EncodeChar (asciiChar (UInt8.ofNat (48 + n))) = [UInt8.ofNat (48 + n)] := by
    decide
  have hlo' : 48 ≤ b.toNat := hlo
  have hhi' : b.toNat ≤ 57 := hhi
  have hb : b = UInt8.ofNat (48 + (b.toNat - 48)) := by
    rw [show 48 + (b.toNat - 48) = b.toNat by omega, UInt8.ofNat_toNat]
  have h := hall ⟨b.toNat - 48, by omega⟩
  simp only at h
  rw [← hb] at h
  refine ⟨?_, h.2⟩
  rw [h.1]
  omega


theorem fromUtf8_digits {t : Bytes} (h : ∀ b ∈ t, Text.isDigit b) :
    Value.fromUtf8 t = some (String.ofList (t.map asciiChar)) := by
  have hbytes : Value.strBytes (String.ofList (t.map asciiChar)) = t := by
    unfold Value.strBytes
    rw [String.toByteArray_ofList, List.utf8Encode]
    have hflat : (t.map asciiChar).flatMap String.utf8EncodeChar = t := by
      induction t with
      | nil => rfl
      | cons b t ih =>
          rw [List.map_cons, List.flatMap_cons, (asciiChar_digit (h b (by simp))).2.2.2,
            ih fun c hc => h c (List.mem_cons_of_mem _ hc)]
          rfl
    rw [hflat]
    simp
  rw [← Value.fromUtf8_strBytes, hbytes]

theorem trim_digits {t : Bytes} (h : ∀ b ∈ t, Text.isDigit b) :
    trim (t.map asciiChar) = t.map asciiChar := by
  have hspace : ∀ l : Bytes, (∀ b ∈ l, Text.isDigit b) →
      (l.map asciiChar).dropWhile isWhitespace = l.map asciiChar := by
    intro l hl
    cases l with
    | nil => rfl
    | cons b l =>
        rw [List.map_cons, List.dropWhile_cons_of_neg]
        simp [(asciiChar_digit (hl b (by simp))).2.2.1]
  unfold trim
  rw [hspace t h, ← List.map_reverse, hspace t.reverse fun b hb => h b (List.mem_reverse.mp hb),
    ← List.map_reverse, List.reverse_reverse]

/-- Reading decimal digits from the front is evaluating them from the back. -/
theorem foldl_digits {t : Bytes} (h : ∀ b ∈ t, Text.isDigit b) (n : Nat) :
    (t.map asciiChar).foldl (fun n c => 10 * n + (c.toNat - 48)) n =
      t.foldl (fun n b => 10 * n + (b.toNat - 48)) n := by
  induction t generalizing n with
  | nil => rfl
  | cons b t ih =>
      rw [List.map_cons, List.foldl_cons, List.foldl_cons, (asciiChar_digit (h b (by simp))).1,
        ih fun c hc => h c (List.mem_cons_of_mem _ hc)]

theorem parse_i64_natText {n : Nat} (hn : n < 2 ^ 63) :
    parse_i64 ((Text.natText n).map asciiChar) = some (n : Int) := by
  have hdigits : ∀ b ∈ Text.natText n, Text.isDigit b := fun b hb => Text.isDigit_natText hb
  have hsign : splitSign ((Text.natText n).map asciiChar) =
      (false, (Text.natText n).map asciiChar) := by
    cases ht : (Text.natText n) with
    | nil => rfl
    | cons b t =>
        have hb : (asciiChar b).isDigit = true :=
          (asciiChar_digit (hdigits b (by simp [ht]))).2.1
        rw [List.map_cons]
        unfold splitSign
        split
        · next heq =>
            rw [List.cons.injEq] at heq
            rw [heq.1] at hb
            cases hb
        · next heq =>
            rw [List.cons.injEq] at heq
            rw [heq.1] at hb
            cases hb
        · rfl
  have hne : (Text.natText n).map asciiChar ≠ [] := by
    simp [Text.natText_ne_nil]
  have hall : ((Text.natText n).map asciiChar).all Char.isDigit = true := by
    rw [List.all_eq_true]
    intro c hc
    obtain ⟨b, hb, rfl⟩ := List.mem_map.mp hc
    exact (asciiChar_digit (hdigits b hb)).2.1
  unfold parse_i64
  rw [hsign]
  simp only [hne, hall, not_true_eq_false, or_self, if_false, foldl_digits hdigits,
    Text.foldl_natText, Bool.false_eq_true]
  rw [if_pos (by omega)]

/-- A length in decimal is read back, with its carriage return or without. -/
theorem parse_len_natText {n : Nat} (hn : n < 2 ^ 63) (what : ProtocolError) {tail : Bytes}
    (htail : tail = [] ∨ tail = [CR]) :
    parse_len (Text.natText n ++ tail) what = .ok (some n) := by
  have hdigits : ∀ b ∈ Text.natText n, Text.isDigit b := fun b hb => Text.isDigit_natText hb
  have hstrip : stripCr (Text.natText n ++ tail) = Text.natText n := by
    unfold stripCr
    rcases htail with rfl | rfl
    · rw [List.append_nil, if_neg]
      intro hlast
      have hcr := hdigits CR (List.mem_of_getLast? hlast)
      exact absurd hcr (by decide)
    · rw [List.getLast?_concat, if_pos rfl, List.dropLast_concat]
  unfold parse_len
  rw [hstrip, fromUtf8_digits hdigits, Option.bind_some, String.toList_ofList,
    trim_digits hdigits, parse_i64_natText hn]
  simp only
  rw [if_neg (by omega), if_neg (by omega), Int.toNat_natCast]

/-! ## The encoding -/

theorem natText_lf (n : Nat) {b : UInt8} (h : b ∈ Text.natText n) : b ≠ LF ∧ b ≠ CR := by
  have hdigit := Text.isDigit_natText h
  constructor
  · rintro rfl
    exact absurd hdigit (by decide)
  · rintro rfl
    exact absurd hdigit (by decide)

/-- The line that announces a length, without its newline. -/
def lengthLine (kind : UInt8) (n : Nat) : Bytes := kind :: (Text.natText n ++ [CR])

theorem header_eq (kind : UInt8) (n : Nat) :
    header kind (Text.intText (n : Int)) = lengthLine kind n ++ [LF] := by
  rw [header, Text.intText_natCast, lengthLine]
  simp

theorem lf_not_mem_lengthLine {kind : UInt8} (hkind : kind ≠ LF) (n : Nat) :
    LF ∉ lengthLine kind n := by
  rw [lengthLine, List.mem_cons, List.mem_append, List.mem_singleton]
  rintro (h | h | h)
  · exact hkind h.symm
  · exact (natText_lf n h).1 rfl
  · exact absurd h (by decide)

/-- The bulk string of an argument, as it is sent. -/
def bulkBytes (a : Bytes) : Bytes := lengthLine DOLLAR a.length ++ LF :: (a ++ [CR, LF])

theorem encodeAll_bulks (args : Command) :
    encode_as.encodeAll false (args.map .bulk) = args.flatMap bulkBytes := by
  induction args with
  | nil => rfl
  | cons a args ih =>
      rw [List.map_cons, encode_as.encodeAll, ih, encode_as, header_eq, List.flatMap_cons,
        bulkBytes]
      simp

theorem encode_request (args : Command) :
    (request args).encode =
      lengthLine STAR args.length ++ LF :: args.flatMap bulkBytes := by
  rw [encode, request, encode_as, encodeAll_bulks, List.length_map, header_eq]
  simp


/-! ## Reading it back -/

theorem bulkLen_lengthLine {n : Nat} (hn : n ≤ MAX_BULK_LEN) {tail : Bytes}
    (htail : tail = [] ∨ tail = [CR]) :
    bulkLen (Text.natText n ++ tail) = .ok n := by
  have hsmall : n < 2 ^ 63 := by
    unfold MAX_BULK_LEN at hn
    omega
  rw [bulkLen, parse_len_natText hsmall .badBulkLen htail]
  simp only
  rw [if_neg (by omega)]

theorem readBulk_bulkBytes {a : Bytes} (ha : a.length ≤ MAX_BULK_LEN) (rest : Bytes) :
    readBulk (bulkBytes a ++ rest) = .done a rest := by
  have hread := readBulk_append
    (lf_not_mem_lengthLine (show DOLLAR ≠ LF by decide) a.length) rfl (bulkLen_lengthLine ha (.inr rfl)) rest
  rw [bulkBytes, List.append_assoc, List.cons_append, List.append_assoc]
  exact hread

theorem readBulks_bulkBytes {args : Command} (hlen : ∀ a ∈ args, a.length ≤ MAX_BULK_LEN)
    (rest : Bytes) :
    readBulks args.length (args.flatMap bulkBytes ++ rest) = .done args rest := by
  induction args with
  | nil => rfl
  | cons a args ih =>
      rw [List.flatMap_cons, List.append_assoc, List.length_cons, readBulks,
        readBulk_bulkBytes (hlen a (by simp))]
      simp only
      rw [ih fun b hb => hlen b (List.mem_cons_of_mem _ hb)]

theorem parse_len_count {n : Nat} (hn : n ≤ MAX_ARGS) {tail : Bytes}
    (htail : tail = [] ∨ tail = [CR]) :
    parse_len (Text.natText n ++ tail) .badArrayHeader = .ok (some n) := by
  refine parse_len_natText ?_ _ htail
  unfold MAX_ARGS at hn
  omega

/-- No line that announces a length is too long. -/
theorem length_lengthLine_le (kind : UInt8) {n : Nat} (hn : n < 2 ^ 63) :
    (lengthLine kind n).length ≤ MAX_LINE := by
  have hdigits : (Text.natText n).length ≤ 64 := by
    unfold Text.natText
    split
    · simp
    · rw [List.length_reverse, List.length_map, Nat.digits_length_le_iff (by decide)]
      omega
  rw [lengthLine, List.length_cons, List.length_append, List.length_singleton]
  unfold MAX_LINE
  omega

theorem not_overlong {line rest : Bytes} (hnot : LF ∉ line) (hle : line.length ≤ MAX_LINE) :
    ¬ Overlong (line ++ LF :: rest) := by
  rintro ⟨line', rest', heq, hnot', hlong⟩
  have hread := readLine_append hnot rest
  rw [heq, readLine_append hnot', Read.done.injEq] at hread
  rw [hread.1] at hlong
  omega

theorem not_visitsBulk_overlong {args : Command} (hlen : ∀ a ∈ args, a.length ≤ MAX_BULK_LEN) :
    ¬ VisitsBulk Overlong args.length (args.flatMap bulkBytes) := by
  induction args with
  | nil => exact id
  | cons a args ih =>
      have ha := hlen a (by simp)
      have hsmall : a.length < 2 ^ 63 := by
        unfold MAX_BULK_LEN at ha
        omega
      rw [List.length_cons, List.flatMap_cons]
      rintro (⟨_, hover⟩ | ⟨arg, rest, hread, hvisit⟩)
      · rw [bulkBytes, List.append_assoc, List.cons_append] at hover
        exact not_overlong (lf_not_mem_lengthLine (by decide) _)
          (length_lengthLine_le DOLLAR hsmall) hover
      · rw [readBulk_bulkBytes ha, Read.done.injEq] at hread
        rw [← hread.2] at hvisit
        exact ih (fun b hb => hlen b (List.mem_cons_of_mem _ hb)) hvisit

/-! ## The blocking reader on the encoding -/

theorem read_until_append {line : Bytes} (h : LF ∉ line) (rest : Bytes) :
    read_until (line ++ LF :: rest) = (line ++ [LF], rest) := by
  induction line with
  | nil => rfl
  | cons b line ih =>
      rw [List.mem_cons, not_or] at h
      rw [List.cons_append, read_until, if_neg (Ne.symm h.1), ih h.2]
      rfl

theorem popEnds_lengthLine (kind : UInt8) (n : Nat) :
    popEnds (lengthLine kind n ++ [LF]) = kind :: Text.natText n := by
  have hline : lengthLine kind n ++ [LF] = (kind :: Text.natText n) ++ [CR] ++ [LF] := by
    simp [lengthLine]
  have hlast : (kind :: Text.natText n).getLast (by simp) ∈ Text.natText n := by
    rw [List.getLast_cons (Text.natText_ne_nil n)]
    exact List.getLast_mem _
  rw [hline, popEnds, List.rdropWhile_concat_pos _ _ _ (by simp),
    List.rdropWhile_concat_pos _ _ _ (by simp), List.rdropWhile_eq_self_iff]
  intro _
  obtain ⟨hlf, hcr⟩ := natText_lf n hlast
  simp [hlf, hcr]

theorem read_bulk_bulkBytes {a : Bytes} (ha : a.length ≤ MAX_BULK_LEN) (rest : Bytes) :
    read_bulk (bulkBytes a ++ rest) = .ok (a, rest) := by
  have hbulk : bulkBytes a ++ rest =
      lengthLine DOLLAR a.length ++ LF :: (a ++ [CR, LF] ++ rest) := by
    simp [bulkBytes]
  have hparse := bulkLen_lengthLine ha (.inl (Eq.refl ([] : Bytes)))
  rw [List.append_nil] at hparse
  have hexact : read_exact (a.length + 2) (a ++ [CR, LF] ++ rest) =
      .ok (a ++ [CR, LF], rest) := by
    have hlen : (a ++ [CR, LF]).length = a.length + 2 := by simp
    rw [read_exact, ← hlen, List.take_left, List.drop_left, if_pos (by simp)]
  rw [hbulk, read_bulk, read_until_append (lf_not_mem_lengthLine (by decide) _)]
  simp only [popEnds_lengthLine, List.head?_cons, ne_eq, not_true_eq_false, if_false,
    List.drop_one, List.tail_cons, hparse, hexact, List.take_left]

theorem read_bulks_bulkBytes {args : Command} (hlen : ∀ a ∈ args, a.length ≤ MAX_BULK_LEN)
    (rest : Bytes) :
    read_bulks args.length (args.flatMap bulkBytes ++ rest) = .ok (args, rest) := by
  induction args with
  | nil => rfl
  | cons a args ih =>
      rw [List.flatMap_cons, List.append_assoc, List.length_cons, read_bulks,
        read_bulk_bulkBytes (hlen a (by simp))]
      simp only
      rw [ih fun b hb => hlen b (List.mem_cons_of_mem _ hb)]

section Limits

variable {args : Command} (hcount : args.length ≤ MAX_ARGS)
  (hlen : ∀ a ∈ args, a.length ≤ MAX_BULK_LEN)
include hcount hlen

/-- The reader takes exactly the encoding. -/
theorem readCommand_request (rest : Bytes) :
    readCommand ((request args).encode ++ rest) = .done args rest := by
  have hline := readLine_append
    (lf_not_mem_lengthLine (show STAR ≠ LF by decide) args.length) (args.flatMap bulkBytes ++ rest)
  have hstar : (lengthLine STAR args.length).head? = some STAR := rfl
  have hparse : parse_len ((lengthLine STAR args.length).drop 1) .badArrayHeader =
      .ok (some args.length) := parse_len_count hcount (.inr rfl)
  rw [encode_request, List.append_assoc, List.cons_append, readCommand_eq, hline]
  simp only
  rw [readArgs, if_pos hstar, hparse]
  simp only
  rw [if_neg (by omega), readBulks_bulkBytes hlen]

/-- No line of a request is too long. -/
theorem not_visits_overlong : ¬ Visits Overlong (request args).encode := by
  have hargs : args.length < 2 ^ 63 := by
    unfold MAX_ARGS at hcount
    omega
  have hline := readLine_append
    (lf_not_mem_lengthLine (show STAR ≠ LF by decide) args.length) (args.flatMap bulkBytes)
  rw [encode_request]
  rintro (hover | ⟨line, rest, count, hread, hstar, hparse, hle, hvisit⟩)
  · exact not_overlong (lf_not_mem_lengthLine (by decide) _) (length_lengthLine_le STAR hargs) hover
  · rw [hline, Read.done.injEq] at hread
    obtain ⟨rfl, rfl⟩ := hread
    rw [show (lengthLine STAR args.length).drop 1 = Text.natText args.length ++ [CR] from rfl,
      parse_len_count hcount (.inr rfl), Except.ok.injEq, Option.some.injEq] at hparse
    obtain rfl := hparse
    exact not_visitsBulk_overlong hlen hvisit

/-- On a proper beginning of the encoding the reader wants more. -/
theorem readCommand_beginning {p more : Bytes} (hcut : p ++ more = (request args).encode)
    (hmore : more ≠ []) :
    readCommand p = .more := by
  have hwhole := readCommand_request hcount hlen []
  rw [List.append_nil, ← hcut] at hwhole
  cases hp : readCommand p with
  | more => rfl
  | done cmd rest =>
      rw [frontal_readCommand.done_append hp more, Read.done.injEq] at hwhole
      exact absurd (List.append_eq_nil_iff.mp hwhole.2).2 hmore
  | bad e =>
      by_cases he : e = .tooBigInline
      · rw [he] at hp
        rcases visits_append ((readCommand_tooBig_iff p).mp hp) more with hopen | hover
        · rw [(readCommand_tooBig_iff _).mpr hopen] at hwhole
          cases hwhole
        · rw [hcut] at hover
          exact absurd hover (not_visits_overlong hcount hlen)
      · rw [frontal_readCommand.bad hp he more] at hwhole
        cases hwhole

/-- The blocking reader takes exactly the encoding. -/
theorem read_command_request (rest : Bytes) :
    read_command ((request args).encode ++ rest) = .ok (some args, rest) := by
  have hparse := parse_len_count hcount (.inl (Eq.refl ([] : Bytes)))
  rw [List.append_nil] at hparse
  rw [encode_request, List.append_assoc, List.cons_append, read_command,
    read_until_append (lf_not_mem_lengthLine (by decide) _)]
  simp only [popEnds_lengthLine, List.append_eq_nil_iff, List.cons_ne_nil, and_false, if_false,
    List.head?_cons, if_true, List.drop_one, List.tail_cons, hparse]
  rw [if_neg (by omega), read_bulks_bulkBytes hlen]

/-- Requests within the limits are read back: whatever follows them, `try_parse`
and `read_command` give the arguments and take the encoding, and `try_parse` wants
more on every proper beginning of it. -/
theorem requests_round_trip :
    (∀ rest, try_parse ((request args).encode ++ rest) =
      .ok (some (args, (request args).encode.length))) ∧
    (∀ p, p <+: (request args).encode → p ≠ (request args).encode → try_parse p = .ok none) ∧
    ∀ rest, read_command ((request args).encode ++ rest) = .ok (some args, rest) := by
  refine ⟨fun rest => ?_, ?_, read_command_request hcount hlen⟩
  · rw [try_parse_eq, readCommand_request hcount hlen, Read.result, List.length_append,
      Nat.add_sub_cancel]
  · rintro p ⟨more, hcut⟩ hne
    have hmore : more ≠ [] := by
      rintro rfl
      exact hne (by rw [← hcut, List.append_nil])
    rw [try_parse_eq, readCommand_beginning hcount hlen hcut hmore]
    rfl

end Limits

theorem requests_round_trip_binary :
    (∀ rest, try_parse ((request [[CR, LF], []]).encode ++ rest) =
      .ok (some ([[CR, LF], []], (request [[CR, LF], []]).encode.length))) ∧
    (∀ p, p <+: (request [[CR, LF], []]).encode → p ≠ (request [[CR, LF], []]).encode →
      try_parse p = .ok none) ∧
    ∀ rest, read_command ((request [[CR, LF], []]).encode ++ rest) =
      .ok (some [[CR, LF], []], rest) :=
  requests_round_trip (by decide) (by decide)

end Resp
end StrikeDB
