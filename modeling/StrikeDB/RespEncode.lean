import StrikeDB.Text

/-!
# StrikeDB: replies on the wire

`Resp::encode_as` of the protocol crate, and a reader of the protocol that takes
one value from the front of a buffer.  On a connection of the second protocol a
push is an array, and on one of the third the null array is the null (`asSent`).

* `readReply_encode`: what is written for a framed reply is one value, the one
  sent, and nothing of the bytes behind it is read.
* `readReply_ne`: what is written for any other reply is never read as it.
* `readReplies_iff`: a sequence of replies is read back as the values sent
  exactly when each is framed.
-/

namespace StrikeDB

open Text (OneLine intText number MINUS)

/-- A reply. -/
inductive Resp where
  | simple (s : Text)
  | error (s : Text)
  | int (i : Int64)
  | bulk (b : Bytes)
  | nil
  | nilArray
  | array (items : List Resp)
  | map (items : List Resp)
  | push (items : List Resp)

namespace Resp

def PLUS : UInt8 := 43
def COLON : UInt8 := 58
def PERCENT : UInt8 := 37
def GREATER : UInt8 := 62
def UNDERSCORE : UInt8 := 95

/-- A line: what kind of value it begins, its text and its end. -/
def header (kind : UInt8) (t : Text) : Bytes := kind :: (t ++ [CR, LF])

/-- `encode_as`: the bytes of a reply; `resp3` is whether the connection has
negotiated the third protocol. -/
def encode_as (resp3 : Bool) : Resp → Bytes
  | simple s => header PLUS s
  | error s => header MINUS s
  | int i => header COLON (intText i.toInt)
  | bulk b => header DOLLAR (intText b.length) ++ b ++ [CR, LF]
  | nil => if resp3 then header UNDERSCORE [] else header DOLLAR (intText (-1))
  | nilArray => if resp3 then header UNDERSCORE [] else header STAR (intText (-1))
  | array items => header STAR (intText items.length) ++ encodeAll items
  | push items =>
      header (if resp3 then GREATER else STAR) (intText items.length) ++ encodeAll items
  | map items => header PERCENT (intText (items.length / 2 : Nat)) ++ encodeAll items
where
  encodeAll : List Resp → Bytes
    | [] => []
    | item :: items => encode_as resp3 item ++ encodeAll items

/-- `encode`. -/
def encode (r : Resp) : Bytes := r.encode_as false

/-- The value that a reply stands for on the wire. -/
def asSent (resp3 : Bool) : Resp → Resp
  | simple s => simple s
  | error s => error s
  | int i => int i
  | bulk b => bulk b
  | nil => nil
  | nilArray => if resp3 then nil else nilArray
  | array items => array (allAsSent items)
  | push items => if resp3 then push (allAsSent items) else array (allAsSent items)
  | map items => map (allAsSent items)
where
  allAsSent : List Resp → List Resp
    | [] => []
    | item :: items => asSent resp3 item :: allAsSent items

/-- Every status and error in the reply is one line, and every map has a value
for each key. -/
def Framed : Resp → Prop
  | simple s => OneLine s
  | error s => OneLine s
  | int _ => True
  | bulk _ => True
  | nil => True
  | nilArray => True
  | array items => AllFramed items
  | push items => AllFramed items
  | map items => items.length % 2 = 0 ∧ AllFramed items
where
  AllFramed : List Resp → Prop
    | [] => True
    | item :: items => Framed item ∧ AllFramed items

/-! ## The reader -/

/-- The end of a line behind its carriage return. -/
def readLf : Bytes → Option (Text × Bytes)
  | [] => none
  | b :: rest => if b = LF then some ([], rest) else none

/-- A line, up to the first line break, which must be `\r\n`. -/
def readHeader : Bytes → Option (Text × Bytes)
  | [] => none
  | b :: rest =>
      if b = CR then readLf rest
      else if b = LF then none
      else (readHeader rest).map fun r => (b :: r.1, r.2)

/-- `count` values one behind the other. -/
def readItems (read : Bytes → Option (Resp × Bytes)) :
    Nat → Bytes → Option (List Resp × Bytes)
  | 0, buf => some ([], buf)
  | count + 1, buf =>
      match read buf with
      | none => none
      | some (item, rest) => (readItems read count rest).map fun r => (item :: r.1, r.2)

/-- The bytes of a bulk string and its end. -/
def readBulkBody (len : Nat) (buf : Bytes) : Option (Resp × Bytes) :=
  if (buf.drop len).take 2 = [CR, LF] then some (.bulk (buf.take len), buf.drop (len + 2))
  else none

/-- An array, a push or a map with `count` items in all. -/
def readAggregate (read : Bytes → Option (Resp × Bytes)) (make : List Resp → Resp)
    (count : Nat) (buf : Bytes) : Option (Resp × Bytes) :=
  (readItems read count buf).map fun r => (make r.1, r.2)

/-- What a line with a number begins. -/
def readCounted (read : Bytes → Option (Resp × Bytes)) (kind : UInt8) (i : Int) (buf : Bytes) :
    Option (Resp × Bytes) :=
  if kind = COLON then
    if (Int64.ofInt i).toInt = i then some (.int (.ofInt i), buf) else none
  else if i = -1 ∧ kind = DOLLAR then some (.nil, buf)
  else if i = -1 ∧ kind = STAR then some (.nilArray, buf)
  else if i < 0 then none
  else if kind = DOLLAR then readBulkBody i.toNat buf
  else if kind = STAR then readAggregate read .array i.toNat buf
  else if kind = GREATER then readAggregate read .push i.toNat buf
  else if kind = PERCENT then readAggregate read .map (2 * i.toNat) buf
  else none

/-- The rest of a value whose line is `kind` and `line`. -/
def readBody (read : Bytes → Option (Resp × Bytes)) (kind : UInt8) (line : Text) (buf : Bytes) :
    Option (Resp × Bytes) :=
  if kind = PLUS then some (.simple line, buf)
  else if kind = MINUS then some (.error line, buf)
  else if kind = UNDERSCORE then if line = [] then some (.nil, buf) else none
  else (number line).bind fun i => readCounted read kind i buf

/-- One value, nested at most `fuel` deep. -/
def readReply : Nat → Bytes → Option (Resp × Bytes)
  | 0, _ => none
  | _ + 1, [] => none
  | fuel + 1, kind :: tail =>
      (readHeader tail).bind fun r => readBody (readReply fuel) kind r.1 r.2

/-- All the values of a buffer; a value takes a byte for each level of nesting. -/
def readReplies (fuel : Nat) : Nat → Bytes → Option (List Resp)
  | 0, buf => if buf = [] then some [] else none
  | count + 1, buf =>
      if buf = [] then some []
      else
        match readReply fuel buf with
        | none => none
        | some (r, rest) => (readReplies fuel count rest).map (r :: ·)

/-- The values of a buffer: nothing but whole values, nested less deep than the
buffer is long. -/
def values (buf : Bytes) : Option (List Resp) := readReplies buf.length buf.length buf

/-! ## What the reader makes of an encoding -/

theorem readHeader_append {t : Text} (h : OneLine t) (rest : Bytes) :
    readHeader (t ++ CR :: LF :: rest) = some (t, rest) := by
  induction t with
  | nil => simp [readHeader, readLf]
  | cons b t ih =>
      obtain ⟨hcr, hlf⟩ := h
      rw [List.mem_cons, not_or] at hcr hlf
      have hne : b ≠ CR := fun heq => hcr.1 heq.symm
      have hne' : b ≠ LF := fun heq => hlf.1 heq.symm
      rw [List.cons_append, readHeader, if_neg hne, if_neg hne', ih ⟨hcr.2, hlf.2⟩]
      rfl

/-- Whatever the reader takes for a line has no line break. -/
theorem oneLine_of_readHeader {buf rest : Bytes} {t : Text}
    (h : readHeader buf = some (t, rest)) : OneLine t := by
  induction buf generalizing t with
  | nil => simp [readHeader] at h
  | cons b buf ih =>
      rw [readHeader] at h
      split at h
      · cases buf with
        | nil => simp [readLf] at h
        | cons c buf =>
            rw [readLf] at h
            split at h
            · rw [Option.some.injEq, Prod.mk.injEq] at h
              rw [← h.1]
              exact Text.oneLine_nil
            · simp at h
      · next hcr =>
          split at h
          · simp at h
          · next hlf =>
              rw [Option.map_eq_some_iff] at h
              obtain ⟨⟨t', rest'⟩, hread, heq⟩ := h
              rw [Prod.mk.injEq] at heq
              obtain ⟨rfl, rfl⟩ := heq
              obtain ⟨hcr', hlf'⟩ := ih hread
              constructor
              · rw [List.mem_cons, not_or]
                exact ⟨fun heq => hcr heq.symm, hcr'⟩
              · rw [List.mem_cons, not_or]
                exact ⟨fun heq => hlf heq.symm, hlf'⟩

theorem readHeader_header {t : Text} (h : OneLine t) (rest : Bytes) :
    readHeader (t ++ [CR, LF] ++ rest) = some (t, rest) := by
  rw [List.append_assoc]
  exact readHeader_append h rest

theorem readBulkBody_append (b rest : Bytes) :
    readBulkBody b.length (b ++ [CR, LF] ++ rest) = some (.bulk b, rest) := by
  have hdrop : (b ++ [CR, LF] ++ rest).drop (b.length + 2) = rest := by
    have hlength : b.length + 2 = (b ++ [CR, LF]).length := by simp
    rw [hlength, List.drop_left]
  rw [readBulkBody, hdrop]
  simp

theorem readReply_header {t : Text} (h : OneLine t) (fuel : Nat) (kind : UInt8) (rest : Bytes) :
    readReply (fuel + 1) (header kind t ++ rest) = readBody (readReply fuel) kind t rest := by
  rw [header, List.cons_append, readReply, readHeader_header h]
  rfl

theorem readReply_counted (fuel : Nat) {kind : UInt8}
    (hkind : kind ∉ [PLUS, MINUS, UNDERSCORE]) (i : Int) (rest : Bytes) :
    readReply (fuel + 1) (header kind (intText i) ++ rest) =
      readCounted (readReply fuel) kind i rest := by
  simp only [List.mem_cons, List.not_mem_nil, or_false, not_or] at hkind
  obtain ⟨hplus, hminus, hunder⟩ := hkind
  rw [readReply_header (Text.oneLine_intText i), readBody, if_neg hplus, if_neg hminus,
    if_neg hunder, Text.number_intText]
  rfl

theorem encode_as_length_pos (resp3 : Bool) (r : Resp) : 0 < (r.encode_as resp3).length := by
  cases r <;> cases resp3 <;> simp [encode_as, header]

/-- A line with a count, and that many items behind it. -/
theorem readReply_aggregate
    {fuel count : Nat} {kind : UInt8} {make : List Resp → Resp} {items : List Resp}
    {body rest : Bytes} (hkind : kind ∉ [PLUS, MINUS, UNDERSCORE]) (i : Nat)
    (hcounted : ∀ buf, readCounted (readReply fuel) kind i buf =
      readAggregate (readReply fuel) make count buf)
    (hitems : readItems (readReply fuel) count (body ++ rest) = some (items, rest)) :
    readReply (fuel + 1) (header kind (intText i) ++ body ++ rest) = some (make items, rest) := by
  rw [List.append_assoc, readReply_counted fuel hkind, hcounted, readAggregate, hitems]
  rfl

theorem readCounted_star (read : Bytes → Option (Resp × Bytes)) (n : Nat) (buf : Bytes) :
    readCounted read STAR n buf = readAggregate read .array n buf := by
  have hneg : ¬ (n : Int) = -1 := by omega
  have hneg' : ¬ (n : Int) < 0 := by omega
  simp [readCounted, STAR, COLON, DOLLAR, hneg, hneg']

theorem readCounted_greater (read : Bytes → Option (Resp × Bytes)) (n : Nat) (buf : Bytes) :
    readCounted read GREATER n buf = readAggregate read .push n buf := by
  have hneg : ¬ (n : Int) = -1 := by omega
  have hneg' : ¬ (n : Int) < 0 := by omega
  simp [readCounted, GREATER, STAR, COLON, DOLLAR, hneg, hneg']

theorem readCounted_percent (read : Bytes → Option (Resp × Bytes)) (n : Nat) (buf : Bytes) :
    readCounted read PERCENT n buf = readAggregate read .map (2 * n) buf := by
  have hneg : ¬ (n : Int) = -1 := by omega
  have hneg' : ¬ (n : Int) < 0 := by omega
  simp [readCounted, PERCENT, GREATER, STAR, COLON, DOLLAR, hneg, hneg']

theorem readCounted_dollar (read : Bytes → Option (Resp × Bytes)) (n : Nat) (buf : Bytes) :
    readCounted read DOLLAR n buf = readBulkBody n buf := by
  have hneg : ¬ (n : Int) = -1 := by omega
  have hneg' : ¬ (n : Int) < 0 := by omega
  simp [readCounted, STAR, COLON, DOLLAR, hneg, hneg']

mutual

/-- What is written for a framed reply is one value, the one sent. -/
theorem readReply_encode (resp3 : Bool) (r : Resp) (h : Framed r) {fuel : Nat}
    (hfuel : (r.encode_as resp3).length ≤ fuel) (rest : Bytes) :
    readReply fuel (r.encode_as resp3 ++ rest) = some (r.asSent resp3, rest) := by
  have hpos := encode_as_length_pos resp3 r
  obtain ⟨fuel, rfl⟩ := Nat.exists_eq_succ_of_ne_zero (Nat.pos_iff_ne_zero.mp (by omega : 0 < fuel))
  cases r with
  | simple s => exact readReply_header h fuel PLUS rest
  | error s => exact readReply_header h fuel MINUS rest
  | int i =>
      have hint : readCounted (readReply fuel) COLON i.toInt rest = some (.int i, rest) := by
        simp [readCounted]
      rw [encode_as, readReply_counted fuel (by decide), hint]
      rfl
  | bulk b =>
      rw [encode_as, List.append_assoc, List.append_assoc, readReply_counted fuel (by decide),
        readCounted_dollar, ← List.append_assoc, readBulkBody_append]
      rfl
  | nil =>
      cases resp3 with
      | true => exact readReply_header Text.oneLine_nil fuel UNDERSCORE rest
      | false => exact readReply_counted fuel (by decide) (-1) rest
  | nilArray =>
      cases resp3 with
      | true => exact readReply_header Text.oneLine_nil fuel UNDERSCORE rest
      | false => exact readReply_counted fuel (by decide) (-1) rest
  | array items =>
      rw [encode_as, List.length_append, header, List.length_cons] at hfuel
      have hfuel' : (encode_as.encodeAll resp3 items).length ≤ fuel := by omega
      have hitems := readItems_encode resp3 items h hfuel' rest
      exact readReply_aggregate (by decide) _ (readCounted_star _ _) hitems
  | push items =>
      rw [encode_as, List.length_append, header, List.length_cons] at hfuel
      have hfuel' : (encode_as.encodeAll resp3 items).length ≤ fuel := by omega
      have hitems := readItems_encode resp3 items h hfuel' rest
      cases resp3 with
      | true => exact readReply_aggregate (by decide) _ (readCounted_greater _ _) hitems
      | false => exact readReply_aggregate (by decide) _ (readCounted_star _ _) hitems
  | map items =>
      obtain ⟨heven, h⟩ := h
      rw [encode_as, List.length_append, header, List.length_cons] at hfuel
      have hfuel' : (encode_as.encodeAll resp3 items).length ≤ fuel := by omega
      have hitems := readItems_encode resp3 items h hfuel' rest
      have hcount : 2 * (items.length / 2) = items.length := by omega
      rw [← hcount] at hitems
      exact readReply_aggregate (by decide) _ (readCounted_percent _ _) hitems

theorem readItems_encode (resp3 : Bool) (items : List Resp) (h : Framed.AllFramed items)
    {fuel : Nat} (hfuel : (encode_as.encodeAll resp3 items).length ≤ fuel) (rest : Bytes) :
    readItems (readReply fuel) items.length (encode_as.encodeAll resp3 items ++ rest) =
      some (asSent.allAsSent resp3 items, rest) := by
  cases items with
  | nil => simp [readItems, encode_as.encodeAll, asSent.allAsSent]
  | cons item items =>
      obtain ⟨hitem, hitems⟩ := h
      rw [encode_as.encodeAll, List.length_append] at hfuel
      have hfuel₁ : (item.encode_as resp3).length ≤ fuel := by omega
      have hfuel₂ : (encode_as.encodeAll resp3 items).length ≤ fuel := by omega
      have hread := readReply_encode resp3 item hitem hfuel₁ (encode_as.encodeAll resp3 items ++ rest)
      have hreads := readItems_encode resp3 items hitems hfuel₂ rest
      rw [List.length_cons, readItems, encode_as.encodeAll, List.append_assoc, hread]
      simp only
      rw [hreads]
      rfl

end

/-! ## Only framed replies are read back -/

theorem length_of_readItems
    {read : Bytes → Option (Resp × Bytes)} {count : Nat} {buf rest : Bytes} {items : List Resp}
    (h : readItems read count buf = some (items, rest)) : items.length = count := by
  induction count generalizing buf items with
  | zero =>
      rw [readItems, Option.some.injEq, Prod.mk.injEq] at h
      rw [← h.1]
      rfl
  | succ count ih =>
      rw [readItems] at h
      cases hread : read buf with
      | none => simp [hread] at h
      | some r =>
          simp only [hread, Option.map_eq_some_iff] at h
          obtain ⟨⟨items', rest'⟩, hitems, heq⟩ := h
          simp only [Prod.mk.injEq] at heq
          obtain ⟨rfl, rfl⟩ := heq
          rw [List.length_cons, ih hitems]

@[simp] theorem allAsSent_length (resp3 : Bool) (items : List Resp) :
    (asSent.allAsSent resp3 items).length = items.length := by
  induction items with
  | nil => rfl
  | cons item items ih => simp [asSent.allAsSent, ih]

/-- The items behind a count that was read. -/
theorem readItems_of_readReply
    {fuel count : Nat} {kind : UInt8} {make : List Resp → Resp} {items : List Resp}
    {body rest rest' : Bytes} (hkind : kind ∉ [PLUS, MINUS, UNDERSCORE]) (i : Nat)
    (hcounted : ∀ buf, readCounted (readReply fuel) kind i buf =
      readAggregate (readReply fuel) make count buf)
    (hmake : ∀ items', make items' = make items → items' = items)
    (h : readReply (fuel + 1) (header kind (intText i) ++ body ++ rest) =
      some (make items, rest')) :
    readItems (readReply fuel) count (body ++ rest) = some (items, rest') := by
  rw [List.append_assoc, readReply_counted fuel hkind, hcounted, readAggregate,
    Option.map_eq_some_iff] at h
  obtain ⟨⟨items', rest₁⟩, hitems, heq⟩ := h
  rw [Prod.mk.injEq] at heq
  obtain ⟨hsame, rfl⟩ := heq
  rw [hitems, hmake items' hsame]

/-- A status or an error is read back as one only when it is one line. -/
theorem oneLine_of_readReply
    {fuel : Nat} {kind : UInt8} {s : Text} {rest rest' : Bytes} {make : Text → Resp}
    (hbody : ∀ line buf, readBody (readReply fuel) kind line buf = some (make line, buf))
    (hmake : ∀ line, make line = make s → line = s)
    (h : readReply (fuel + 1) (header kind s ++ rest) = some (make s, rest')) : OneLine s := by
  rw [header, List.cons_append, readReply, Option.bind_eq_some_iff] at h
  obtain ⟨⟨line, buf⟩, hread, hsome⟩ := h
  simp only [hbody, Option.some.injEq, Prod.mk.injEq] at hsome
  rw [← hmake line hsome.1]
  exact oneLine_of_readHeader hread

mutual

/-- What is written for a reply that is not framed is never read as that reply. -/
theorem framed_of_readReply (resp3 : Bool) (r : Resp) {fuel : Nat}
    (hfuel : (r.encode_as resp3).length ≤ fuel) {rest rest' : Bytes}
    (h : readReply fuel (r.encode_as resp3 ++ rest) = some (r.asSent resp3, rest')) :
    Framed r := by
  have hpos := encode_as_length_pos resp3 r
  obtain ⟨fuel, rfl⟩ := Nat.exists_eq_succ_of_ne_zero (Nat.pos_iff_ne_zero.mp (by omega : 0 < fuel))
  cases r with
  | simple s => exact oneLine_of_readReply (fun _ _ => rfl) (fun _ heq => Resp.simple.inj heq) h
  | error s => exact oneLine_of_readReply (fun _ _ => rfl) (fun _ heq => Resp.error.inj heq) h
  | int i => trivial
  | bulk b => trivial
  | nil => trivial
  | nilArray => trivial
  | array items =>
      rw [encode_as, List.length_append, header, List.length_cons] at hfuel
      have hfuel' : (encode_as.encodeAll resp3 items).length ≤ fuel := by omega
      have hitems := readItems_of_readReply (by decide) _ (readCounted_star _ _)
        (fun _ heq => Resp.array.inj heq) h
      exact framed_of_readItems resp3 items hfuel' hitems
  | push items =>
      rw [encode_as, List.length_append, header, List.length_cons] at hfuel
      have hfuel' : (encode_as.encodeAll resp3 items).length ≤ fuel := by omega
      cases resp3 with
      | true =>
          have hitems := readItems_of_readReply (by decide) _ (readCounted_greater _ _)
            (fun _ heq => Resp.push.inj heq) h
          exact framed_of_readItems true items hfuel' hitems
      | false =>
          have hitems := readItems_of_readReply (by decide) _ (readCounted_star _ _)
            (fun _ heq => Resp.array.inj heq) h
          exact framed_of_readItems false items hfuel' hitems
  | map items =>
      rw [encode_as, List.length_append, header, List.length_cons] at hfuel
      have hfuel' : (encode_as.encodeAll resp3 items).length ≤ fuel := by omega
      have hitems := readItems_of_readReply (by decide) _ (readCounted_percent _ _)
        (fun _ heq => Resp.map.inj heq) h
      have hlength := length_of_readItems hitems
      rw [allAsSent_length] at hlength
      rw [← hlength] at hitems
      exact ⟨by omega, framed_of_readItems resp3 items hfuel' hitems⟩

theorem framed_of_readItems (resp3 : Bool) (items : List Resp) {fuel : Nat}
    (hfuel : (encode_as.encodeAll resp3 items).length ≤ fuel) {rest rest' : Bytes}
    (h : readItems (readReply fuel) items.length (encode_as.encodeAll resp3 items ++ rest) =
      some (asSent.allAsSent resp3 items, rest')) :
    Framed.AllFramed items := by
  cases items with
  | nil => trivial
  | cons item items =>
      rw [encode_as.encodeAll, List.length_append] at hfuel
      have hfuel₁ : (item.encode_as resp3).length ≤ fuel := by omega
      have hfuel₂ : (encode_as.encodeAll resp3 items).length ≤ fuel := by omega
      rw [List.length_cons, readItems, encode_as.encodeAll, List.append_assoc] at h
      cases hread : readReply fuel
          (item.encode_as resp3 ++ (encode_as.encodeAll resp3 items ++ rest)) with
      | none => simp [hread] at h
      | some r =>
          obtain ⟨item', rest₁⟩ := r
          simp only [hread, Option.map_eq_some_iff, asSent.allAsSent] at h
          obtain ⟨⟨items', rest₂⟩, hreads, heq⟩ := h
          rw [Prod.mk.injEq, List.cons.injEq] at heq
          obtain ⟨⟨rfl, rfl⟩, rfl⟩ := heq
          have hitem := framed_of_readReply resp3 item hfuel₁ hread
          rw [readReply_encode resp3 item hitem hfuel₁, Option.some.injEq, Prod.mk.injEq] at hread
          obtain ⟨_, rfl⟩ := hread
          exact ⟨hitem, framed_of_readItems resp3 items hfuel₂ hreads⟩

end

/-! ## A connection's replies -/

/-- The bytes written for replies, one behind the other. -/
def written (resp3 : Bool) (replies : List Resp) : Bytes := replies.flatMap (encode_as resp3)

theorem readReplies_iff (resp3 : Bool) (replies : List Resp) {fuel count : Nat}
    (hfuel : (written resp3 replies).length ≤ fuel)
    (hcount : (written resp3 replies).length ≤ count) :
    readReplies fuel count (written resp3 replies) = some (replies.map (asSent resp3)) ↔
      ∀ r ∈ replies, Framed r := by
  induction replies generalizing count with
  | nil => cases count <;> simp [written, readReplies]
  | cons r replies ih =>
      have hcons : written resp3 (r :: replies) = r.encode_as resp3 ++ written resp3 replies := by
        simp [written]
      rw [hcons, List.length_append] at hfuel hcount
      have hpos := encode_as_length_pos resp3 r
      have hne : r.encode_as resp3 ++ written resp3 replies ≠ [] := by
        intro heq
        have := congrArg List.length heq
        rw [List.length_append, List.length_nil] at this
        omega
      obtain ⟨count, rfl⟩ :=
        Nat.exists_eq_succ_of_ne_zero (Nat.pos_iff_ne_zero.mp (by omega : 0 < count))
      have hfuel₁ : (r.encode_as resp3).length ≤ fuel := by omega
      have ih' := @ih count (by omega) (by omega)
      rw [hcons, readReplies, if_neg hne, List.forall_mem_cons, ← ih', List.map_cons]
      constructor
      · intro h
        cases hread : readReply fuel (r.encode_as resp3 ++ written resp3 replies) with
        | none => simp [hread] at h
        | some p =>
            obtain ⟨r', rest⟩ := p
            simp only [hread, Option.map_eq_some_iff, List.cons.injEq] at h
            obtain ⟨found, hfound, rfl, rfl⟩ := h
            have hr := framed_of_readReply resp3 r hfuel₁ hread
            rw [readReply_encode resp3 r hr hfuel₁, Option.some.injEq, Prod.mk.injEq] at hread
            obtain ⟨_, rfl⟩ := hread
            exact ⟨hr, hfound⟩
      · rintro ⟨hr, hfound⟩
        rw [readReply_encode resp3 r hr hfuel₁]
        simp only
        rw [hfound]
        rfl

/-- A client that reads the replies gets the values sent, one for each reply,
exactly when every reply is framed. -/
theorem values_written_iff (resp3 : Bool) (replies : List Resp) :
    values (written resp3 replies) = some (replies.map (asSent resp3)) ↔
      ∀ r ∈ replies, Framed r :=
  readReplies_iff resp3 replies le_rfl le_rfl

end Resp
end StrikeDB
