import StrikeDB.OrderedMap
import StrikeDB.Replies
import StrikeDB.Resolve

/-!
# StrikeDB: stream entry IDs

An ID is a pair of 64-bit numbers in lexicographic order.  `next_id` and
`prev_id` carry over from one number to the other and stop at the ends.
-/

namespace StrikeDB
namespace Stream

/-- Stream entry ID `<ms>-<seq>`. -/
structure Id where
  ms : UInt64
  seq : UInt64
deriving DecidableEq, Repr

namespace Id

/-- The place of an ID in the order of all IDs. -/
def place (i : Id) : Nat := i.ms.toNat * 2 ^ 64 + i.seq.toNat

theorem place_injective : Function.Injective place := by
  rintro ⟨a, b⟩ ⟨c, d⟩ h
  have hb := b.toNat_lt
  have hd := d.toNat_lt
  simp only [place] at h
  have hms : a.toNat = c.toNat := by omega
  have hseq : b.toNat = d.toNat := by omega
  rw [UInt64.toNat_inj] at hms hseq
  rw [hms, hseq]

instance : LinearOrder Id := LinearOrder.lift' place place_injective

instance : Std.LawfulEqOrd Id := ⟨fun h => compare_eq_iff_eq.mp h⟩

instance : Std.TransOrd Id := inferInstance

theorem lt_iff_place {a b : Id} : a < b ↔ a.place < b.place := Iff.rfl

theorem le_iff_place {a b : Id} : a ≤ b ↔ a.place ≤ b.place := Iff.rfl

/-- The order is that of pairs. -/
theorem lt_iff {a b : Id} : a < b ↔ a.ms < b.ms ∨ a.ms = b.ms ∧ a.seq < b.seq := by
  have ha := a.seq.toNat_lt
  have hb := b.seq.toNat_lt
  rw [lt_iff_place, place, place, UInt64.lt_iff_toNat_lt, UInt64.lt_iff_toNat_lt,
    ← UInt64.toNat_inj]
  omega

end Id

def U64_MAX : UInt64 := 0xFFFFFFFFFFFFFFFF

def ID_MIN : Id := ⟨0, 0⟩
def ID_MAX : Id := ⟨U64_MAX, U64_MAX⟩

def next_id (id : Id) : Option Id :=
  if id.seq < U64_MAX then some ⟨id.ms, id.seq + 1⟩
  else if id.ms < U64_MAX then some ⟨id.ms + 1, 0⟩
  else none

def prev_id (id : Id) : Option Id :=
  if 0 < id.seq then some ⟨id.ms, id.seq - 1⟩
  else if 0 < id.ms then some ⟨id.ms - 1, U64_MAX⟩
  else none

theorem ID_MIN_le (id : Id) : ID_MIN ≤ id := by
  rw [Id.le_iff_place]
  exact Nat.zero_le _

theorem le_ID_MAX (id : Id) : id ≤ ID_MAX := by
  have hms := id.ms.toNat_lt
  have hseq := id.seq.toNat_lt
  have hmax : U64_MAX.toNat = 2 ^ 64 - 1 := by decide
  rw [Id.le_iff_place, Id.place, Id.place, ID_MAX, hmax]
  omega

/-- The successor is the next place. -/
theorem place_next_id {id id' : Id} (h : next_id id = some id') : id'.place = id.place + 1 := by
  have hmax : U64_MAX.toNat = 2 ^ 64 - 1 := by decide
  have hseq := id.seq.toNat_lt
  unfold next_id at h
  split at h
  · next hlt =>
      rw [Option.some.injEq] at h
      rw [UInt64.lt_iff_toNat_lt, hmax] at hlt
      have hone : (id.seq + 1).toNat = id.seq.toNat + 1 := by
        rw [UInt64.toNat_add, UInt64.toNat_one, Nat.mod_eq_of_lt (by omega)]
      simp only [← h, Id.place, hone]
      omega
  · next hseq' =>
      split at h
      · next hlt =>
          rw [Option.some.injEq] at h
          rw [UInt64.lt_iff_toNat_lt, hmax] at hlt hseq'
          have hone : (id.ms + 1).toNat = id.ms.toNat + 1 := by
            rw [UInt64.toNat_add, UInt64.toNat_one, Nat.mod_eq_of_lt (by omega)]
          simp only [← h, Id.place, hone, UInt64.toNat_zero]
          omega
      · cases h

/-- Only the last ID has no successor. -/
theorem eq_max_of_next_id {id : Id} (h : next_id id = none) : id = ID_MAX := by
  have hmax : U64_MAX.toNat = 2 ^ 64 - 1 := by decide
  unfold next_id at h
  split at h
  · cases h
  · next hseq =>
      split at h
      · cases h
      · next hms =>
          have h₁ := id.ms.toNat_lt
          have h₂ := id.seq.toNat_lt
          rw [UInt64.lt_iff_toNat_lt, hmax] at hseq hms
          have hms' : id.ms.toNat = U64_MAX.toNat := by omega
          have hseq' : id.seq.toNat = U64_MAX.toNat := by omega
          rw [UInt64.toNat_inj] at hms' hseq'
          cases id
          simp only at hms' hseq'
          rw [hms', hseq', ID_MAX]

theorem lt_of_next_id {id id' : Id} (h : next_id id = some id') : id < id' := by
  rw [Id.lt_iff_place, place_next_id h]
  omega

/-- From the successor on is behind the ID. -/
theorem next_id_le_iff {id id' : Id} (h : next_id id = some id') (a : Id) : id' ≤ a ↔ id < a := by
  rw [Id.le_iff_place, Id.lt_iff_place, place_next_id h]
  omega

/-! ## Reading and writing IDs -/

def utf8Err (s : String) : Resp := Replies.err (utf8 s)

def invalid_id : Resp := utf8Err "Invalid stream ID specified as stream command argument"
def not_int : Resp := utf8Err "value is not an integer or out of range"
def syntax_error : Resp := utf8Err "syntax error"

def fmt_id (id : Id) : Text :=
  Text.intText id.ms.toNat ++ [45] ++ Text.intText id.seq.toNat

def id_resp (id : Id) : Resp := .bulk (fmt_id id)

/-- `str::parse::<u64>`, without a plus sign. -/
def parse_u64 (s : Bytes) : Option UInt64 :=
  if s = [] ∨ ¬ s.all asciiDigit then none
  else if decimal s < 2 ^ 64 then some (UInt64.ofNat (decimal s))
  else none

/-- `<ms>` or `<ms>-<seq>`; a missing seq becomes `missing_seq`. -/
def parse_id (a : Bytes) (missing_seq : UInt64) : Option Id :=
  match a.findIdx? (· = 45) with
  | some p =>
      match parse_u64 (a.take p), parse_u64 (a.drop (p + 1)) with
      | some ms, some seq => some ⟨ms, seq⟩
      | _, _ => none
  | none => (parse_u64 a).map fun ms => ⟨ms, missing_seq⟩

def strict_id (a : Bytes) : Except Resp Id :=
  match parse_id a 0 with
  | some id => .ok id
  | none => .error invalid_id

/-- The start of a range: `-`, `+`, `(`-exclusive, incomplete IDs. -/
def range_start (a : Bytes) : Except Resp Id :=
  if a = [45] then .ok ID_MIN
  else if a = [43] then .ok ID_MAX
  else if a.head? = some 40 then
    match parse_id (a.drop 1) 0 with
    | none => .error invalid_id
    | some id =>
        match next_id id with
        | some n => .ok n
        | none => .error (utf8Err "invalid start ID for the interval")
  else strict_id a

/-- `parse_i64`. -/
def parse_int (a : Bytes) : Except Resp Int64 :=
  match parse_strict_i64 a with
  | some i => .ok i
  | none => .error not_int

/-- `eq_ignore_ascii_case`. -/
def isWord (a : Bytes) (word : String) : Bool := Text.to_ascii_uppercase a == utf8 word

end Stream
end StrikeDB
