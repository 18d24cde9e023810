import StrikeDB.StreamSteps

/-!
# StrikeDB: iterating XAUTOCLAIM

A client that calls XAUTOCLAIM again and again, each time with the cursor of the last
answer, goes through the pending entries of a group piece by piece.

**Results.**
* `parse_id_fmt_id`: an ID that was written is read back.
* `Session.call_spec`: one call examines a piece of the list, and its cursor is where the
  next one starts.
* `autoclaim_covers`: the calls end, and their pieces make up the whole list.
-/

namespace StrikeDB
namespace Stream

open OrderedMap

/-! ## The cursor as text -/

theorem decimal_natText (n : Nat) : decimal (Text.natText n) = n := Text.foldl_natText n

theorem parse_u64_natText (n : UInt64) : parse_u64 (Text.natText n.toNat) = some n := by
  have hall : (Text.natText n.toNat).all asciiDigit = true := by
    rw [List.all_eq_true]
    exact fun b hb => Text.isDigit_natText hb
  unfold parse_u64
  rw [if_neg (by simp [Text.natText_ne_nil, hall]), decimal_natText, if_pos n.toNat_lt,
    UInt64.ofNat_toNat]

theorem fmt_id_eq (id : Id) :
    fmt_id id = Text.natText id.ms.toNat ++ (45 :: Text.natText id.seq.toNat) := by
  unfold fmt_id
  rw [Text.intText_natCast, Text.intText_natCast, List.append_assoc]
  rfl

/-- An ID that was written is read back. -/
theorem parse_id_fmt_id (id : Id) (missing_seq : UInt64) :
    parse_id (fmt_id id) missing_seq = some id := by
  have hdigits : ∀ b ∈ Text.natText id.ms.toNat, b ≠ 45 := by
    rintro b hb rfl
    exact absurd (Text.isDigit_natText hb) (by decide)
  have hfind : (fmt_id id).findIdx? (· = 45) = some (Text.natText id.ms.toNat).length := by
    have hnone : (Text.natText id.ms.toNat).findIdx? (fun b => decide (b = 45)) = none := by
      rw [List.findIdx?_eq_none_iff]
      intro b hb
      exact decide_eq_false (hdigits b hb)
    rw [fmt_id_eq, List.findIdx?_append, hnone]
    simp [List.findIdx?_cons]
  have htake : (fmt_id id).take (Text.natText id.ms.toNat).length = Text.natText id.ms.toNat := by
    rw [fmt_id_eq]
    exact List.take_left
  have hdrop : (fmt_id id).drop ((Text.natText id.ms.toNat).length + 1) =
      Text.natText id.seq.toNat := by
    rw [fmt_id_eq, ← List.drop_drop, List.drop_left]
    rfl
  unfold parse_id
  rw [hfind]
  simp only
  rw [htake, hdrop, parse_u64_natText, parse_u64_natText]

theorem range_start_fmt_id (id : Id) : range_start (fmt_id id) = .ok id := by
  have hlong : 2 ≤ (fmt_id id).length := by
    have hpos := List.length_pos_of_ne_nil (Text.natText_ne_nil id.ms.toNat)
    rw [fmt_id_eq, List.length_append, List.length_cons]
    omega
  have hhead : (fmt_id id).head? ≠ some 40 := by
    rw [fmt_id_eq]
    cases hms : Text.natText id.ms.toNat with
    | nil => exact absurd hms (Text.natText_ne_nil _)
    | cons b rest =>
        intro heq
        obtain rfl := Option.some.inj heq
        have hdigit := Text.isDigit_natText (n := id.ms.toNat) (b := 40) (by simp [hms])
        exact absurd hdigit (by decide)
  unfold range_start strict_id
  rw [if_neg (fun h => by simp [h] at hlong), if_neg (fun h => by simp [h] at hlong),
    if_neg hhead, parse_id_fmt_id]

/-! ## One call -/

section Piece

variable (now : UInt64) (c : Bytes) (x : AutoClaim) (entries : Entries)

/-- The pending entry is idle for long enough, and there is an entry. -/
def claimOf (e : Id × Pel) : Option (Id × Fields) :=
  match entries[e.1]? with
  | none => none
  | some fields => if now.toNat - e.2.time < x.min_idle then none else some (e.1, fields)

/-- What becomes of a pending entry that is examined. -/
def examinedPel (e : Id × Pel) : Option Pel :=
  match entries[e.1]? with
  | none => none
  | some _ =>
      if now.toNat - e.2.time < x.min_idle then some e.2
      else
        some { time := now.toNat, count := if x.justid then e.2.count else e.2.count + 1
               owner := c }

/-- What the examination of a piece of the pending entries does to all of them. -/
structure Examined (piece : List (Id × Pel)) (pels pels' : Std.ExtTreeMap Id Pel) : Prop where
  inside : ∀ e ∈ piece, pels'[e.1]? = examinedPel now c x entries e
  outside : ∀ a ∉ piece.map Prod.fst, pels'[a]? = pels[a]?

theorem Examined.cons {id : Id} {p : Pel} {piece : List (Id × Pel)}
    {pels mid pels' : Std.ExtTreeMap Id Pel} (h : Examined now c x entries piece mid pels')
    (hnew : id ∉ piece.map Prod.fst) (hmid : mid[id]? = examinedPel now c x entries (id, p))
    (hother : ∀ a, a ≠ id → mid[a]? = pels[a]?) :
    Examined now c x entries ((id, p) :: piece) pels pels' where
  inside := by
    intro e he
    rcases List.mem_cons.mp he with rfl | he
    · rw [h.outside _ hnew]
      exact hmid
    · exact h.inside e he
  outside := by
    intro a ha
    rw [List.map_cons, List.mem_cons, not_or] at ha
    rw [h.outside a ha.2, hother a ha.1]

variable (g : Bytes)

/-- A call examines a piece in front of the list, claims and drops what the piece says,
and gives as its cursor the first ID behind the piece. -/
def Examines (attempts : Nat) (scan : List (Id × Pel)) (f : AutoFound) (d : KeyData)
    (r : AutoFound × KeyData) : Prop :=
  ∃ piece rest m, scan = piece ++ rest ∧
    r.1 =
      { claimed := f.claimed ++ piece.filterMap (claimOf now x entries)
        deleted := f.deleted ++ goneIds entries (piece.map Prod.fst)
        next := (rest.head?.map Prod.fst).getD f.next } ∧
    r.2 = d.setPels g m ∧
    Examined now c x entries piece (d.pels g) m ∧
    piece.length ≤ attempts ∧
    (f.claimed.length < x.count → attempts ≠ 0 → scan ≠ [] → piece ≠ [])

variable {now c x entries g}

theorem Examines.nothing {attempts : Nat} {scan : List (Id × Pel)} {f : AutoFound} {d : KeyData}
    (h : f.claimed.length < x.count → attempts ≠ 0 → scan = []) :
    Examines now c x entries g attempts scan f d
      ({ f with next := (scan.head?.map Prod.fst).getD f.next }, d) := by
  refine ⟨[], scan, d.pels g, rfl, ?_, ?_, ?_, Nat.zero_le _, ?_⟩
  · simp [goneIds]
  · simp
  · exact ⟨fun e he => absurd he List.not_mem_nil, fun a _ => rfl⟩
  · exact fun hroom hleft hscan => absurd (h hroom hleft) hscan

/-- One entry is examined, and then the rest. -/
theorem Examines.cons {attempts : Nat} {id : Id} {p : Pel} {scan : List (Id × Pel)} {f : AutoFound}
    {d : KeyData} {m : Std.ExtTreeMap Id Pel} {r : AutoFound × KeyData}
    (hbehind : ∀ e ∈ scan, id < e.1) (hmid : m[id]? = examinedPel now c x entries (id, p))
    (hother : ∀ a, a ≠ id → m[a]? = (d.pels g)[a]?) (hleft : attempts ≠ 0)
    (h : Examines now c x entries g (attempts - 1) scan
      { claimed := f.claimed ++ [(id, p)].filterMap (claimOf now x entries)
        deleted := f.deleted ++ goneIds entries [id], next := f.next } (d.setPels g m) r) :
    Examines now c x entries g attempts ((id, p) :: scan) f d r := by
  obtain ⟨piece, rest, m', rfl, hfound, hdata, hexamined, hlen, -⟩ := h
  have hfresh : id ∉ piece.map Prod.fst := by
    intro hmem
    obtain ⟨e, he, heq⟩ := List.mem_map.mp hmem
    exact absurd heq (ne_of_gt (hbehind e (List.mem_append_left _ he)))
  rw [KeyData.setPels_pels] at hexamined
  rw [KeyData.setPels_setPels] at hdata
  refine ⟨(id, p) :: piece, rest, m', rfl, ?_, hdata, ?_, ?_, fun _ _ _ => List.cons_ne_nil _ _⟩
  · rw [hfound]
    simp only [List.append_assoc, AutoFound.mk.injEq, and_true]
    constructor
    · rw [← List.filterMap_append]
      rfl
    · unfold goneIds
      rw [← List.filter_append]
      rfl
  · exact hexamined.cons now c x entries hfresh hmid hother
  · rw [List.length_cons]
    omega

variable (now c x entries g) in
theorem autoLoop_examines (attempts : Nat) {scan : List (Id × Pel)} (hinc : Increasing scan)
    (f : AutoFound) (d : KeyData) (hd : d.entries = entries)
    (hpels : ∀ e ∈ scan, (d.pels g)[e.1]? = some e.2) :
    Examines now c x entries g attempts scan f d (autoLoop now g c x attempts scan f d) := by
  induction scan generalizing attempts f d with
  | nil => exact Examines.nothing fun _ _ => rfl
  | cons e scan ih =>
      obtain ⟨id, p⟩ := e
      subst hd
      obtain ⟨hbehind, hinc⟩ := List.pairwise_cons.mp hinc
      have hthis : (d.pels g)[id]? = some p := hpels (id, p) List.mem_cons_self
      have hscan : ∀ m : Std.ExtTreeMap Id Pel, (∀ a, a ≠ id → m[a]? = (d.pels g)[a]?) →
          ∀ e ∈ scan, ((d.setPels g m).pels g)[e.1]? = some e.2 := by
        intro m hother e he
        rw [KeyData.setPels_pels, hother _ (ne_of_gt (hbehind e he))]
        exact hpels e (List.mem_cons_of_mem _ he)
      have hscan' : ∀ e ∈ scan, (d.pels g)[e.1]? = some e.2 :=
        fun e he => hpels e (List.mem_cons_of_mem _ he)
      rw [autoLoop]
      by_cases hstop : f.claimed.length ≥ x.count ∨ attempts = 0
      · rw [if_pos hstop]
        exact Examines.nothing fun hroom hleft =>
          absurd hstop (not_or.mpr ⟨Nat.not_le_of_lt hroom, hleft⟩)
      rw [if_neg hstop]
      have hleft : attempts ≠ 0 := fun h => hstop (.inr h)
      cases hentry : d.entries[id]? with
      | none =>
          have hother : ∀ a, a ≠ id → ((d.pels g).erase id)[a]? = (d.pels g)[a]? := by
            intro a ha
            rw [getElem?_erase', if_neg ha]
          refine Examines.cons hbehind (m := (d.pels g).erase id) ?_ hother hleft ?_
          · rw [getElem?_erase', if_pos rfl, examinedPel, hentry]
          · simp only [List.filterMap_cons, List.filterMap_nil, claimOf, goneIds,
              List.filter_cons, hentry, List.append_nil, Option.isNone_none, if_true,
              List.filter_nil]
            rw [KeyData.delPel_eq]
            exact ih _ hinc _ (d.setPels g _) rfl (hscan _ hother)
      | some fields =>
          have hkept : goneIds d.entries [id] = [] := by
            simp [goneIds, hentry]
          by_cases hidle : now.toNat - p.time < x.min_idle
          · refine Examines.cons hbehind (m := d.pels g) ?_ (fun _ _ => rfl) hleft ?_
            · rw [hthis, examinedPel, hentry, if_pos hidle]
            · have hnot : [(id, p)].filterMap (claimOf now x d.entries) = [] := by
                simp [claimOf, hentry, hidle]
              rw [hnot, hkept, List.append_nil, List.append_nil, KeyData.setPels_self]
              simp only [if_pos hidle]
              exact ih _ hinc _ _ rfl hscan'
          · let p' : Pel :=
              { time := now.toNat, count := if x.justid then p.count else p.count + 1, owner := c }
            have hother : ∀ a, a ≠ id → ((d.pels g).insert id p')[a]? = (d.pels g)[a]? := by
              intro a ha
              rw [getElem?_insert', if_neg ha]
            refine Examines.cons hbehind (m := (d.pels g).insert id p') ?_ hother hleft ?_
            · rw [getElem?_insert', if_pos rfl, examinedPel, hentry, if_neg hidle]
            · have hone : [(id, p)].filterMap (claimOf now x d.entries) = [(id, fields)] := by
                simp [claimOf, hentry, hidle]
              rw [hone, hkept, List.append_nil]
              simp only [if_neg hidle]
              rw [KeyData.putPel_eq]
              exact ih _ hinc _ (d.setPels g _) rfl (hscan _ hother)

end Piece

/-! ## Call after call -/

/-- A call, but for its cursor: when it is made, and its options. -/
structure Call where
  now : UInt64
  opts : List Bytes

/-- What the options of a call say, for a minimal idle time. -/
def Call.parsed (call : Call) (idle : Int64) : Except Resp AutoClaim :=
  parseAutoOpts call.opts.length
    { min_idle := idle.toInt.toNat, start := ID_MIN, count := 100, justid := false } call.opts

/-- What a client has after some calls. -/
structure Session where
  cursor : Id
  data : KeyData
  claimed : List (Id × Fields)
  deleted : List Id

def Session.start (d : KeyData) : Session :=
  { cursor := ID_MIN, data := d, claimed := [], deleted := [] }

section Calls

variable (key g c min_idle : Bytes)

/-- One more call, with the cursor of the last. -/
def Session.call (s : Session) (call : Call) : Except Resp Session :=
  match xautoclaim call.now key g c (min_idle :: fmt_id s.cursor :: call.opts) s.data with
  | .ok (.autoclaimed next _ es deleted, d) =>
      .ok { cursor := next, data := d, claimed := s.claimed ++ es, deleted := s.deleted ++ deleted }
  | .ok _ => .ok s
  | .error e => .error e

def Session.after : Nat → (Nat → Call) → Session → Except Resp Session
  | 0, _, s => .ok s
  | n + 1, calls, s =>
      match s.call key g c min_idle (calls 0) with
      | .ok s' => after n (fun i => calls (i + 1)) s'
      | .error e => .error e

end Calls

theorem parseAutoOpts_start (fuel : Nat) (o x : AutoClaim) (a : List Bytes) (start : Id)
    (h : parseAutoOpts fuel o a = .ok x) :
    parseAutoOpts fuel { o with start := start } a = .ok { x with start := start } ∧
      (1 ≤ o.count → 1 ≤ x.count) ∧ x.min_idle = o.min_idle := by
  induction fuel generalizing o a with
  | zero =>
      cases h
      exact ⟨rfl, id, rfl⟩
  | succ fuel ih =>
      cases a with
      | nil =>
          cases h
          exact ⟨rfl, id, rfl⟩
      | cons opt rest =>
          unfold parseAutoOpts at h ⊢
          split at h
          · next hword =>
              rw [if_pos hword]
              cases rest with
              | nil => cases h
              | cons v rest' =>
                  simp only at h ⊢
                  cases hv : parse_int v with
                  | error e =>
                      rw [hv] at h
                      cases h
                  | ok n =>
                      rw [hv] at h
                      simp only at h ⊢
                      split at h
                      · cases h
                      · next hrange =>
                          rw [if_neg hrange]
                          obtain ⟨hok, hcount, hidle⟩ := ih _ _ h
                          refine ⟨hok, fun _ => hcount ?_, hidle⟩
                          simp only
                          omega
          · next hword =>
              rw [if_neg hword]
              split at h
              · next hjust =>
                  rw [if_pos hjust]
                  exact ih _ _ h
              · cases h

theorem Increasing.eq_of_mem_iff {V : Type} {l l' : List (Id × V)} (h : Increasing l)
    (h' : Increasing l') (hmem : ∀ e, e ∈ l ↔ e ∈ l') : l = l' := by
  have hirrefl : Std.Irrefl fun a b : Id × V => a.1 < b.1 := ⟨fun a ha => absurd ha (lt_irrefl _)⟩
  have hantisymm : Std.Antisymm fun a b : Id × V => a.1 < b.1 :=
    ⟨fun a b hab hba => absurd hab (lt_asymm hba)⟩
  exact List.Pairwise.eq_of_mem_iff h h' hmem

theorem load_of_groupOf {d : KeyData} {g : Bytes} {r : Header × Group}
    (h : groupOf d g = .ok (some r)) : ∃ s, load d = .ok (some s) := by
  unfold groupOf at h
  cases hload : load d with
  | error e =>
      rw [hload] at h
      cases h
  | ok found =>
      cases found with
      | none =>
          rw [hload] at h
          cases h
      | some s => exact ⟨s, rfl⟩

section Calls

variable {key g c min_idle : Bytes} {idle : Int64}

variable (key c) in
/-- One call examines a piece at the cursor; the next cursor is where the rest starts. -/
theorem Session.call_spec {s : Session} {call : Call} {x : AutoClaim} {r : Header × Group}
    (hgroup : groupOf s.data g = .ok (some r)) (hidle : parse_strict_i64 min_idle = some idle)
    (hx : call.parsed idle = .ok x) :
    ∃ piece rest m active, s.data.pel_range g s.cursor ID_MAX = piece ++ rest ∧
      s.call key g c min_idle call = .ok
        { cursor := (rest.head?.map Prod.fst).getD ID_MIN
          data := (s.data.setPels g m).touch_con call.now g c active
          claimed := s.claimed ++ piece.filterMap (claimOf call.now x s.data.entries)
          deleted := s.deleted ++ goneIds s.data.entries (piece.map Prod.fst) } ∧
      Examined call.now c x s.data.entries piece (s.data.pels g) m ∧
      (s.data.pel_range g s.cursor ID_MAX ≠ [] → piece ≠ []) := by
  obtain ⟨hopts, hcount, hmin⟩ := parseAutoOpts_start _ _ _ _ s.cursor hx
  have hpos : 1 ≤ x.count := hcount (Nat.le_add_left 1 99)
  obtain ⟨h, hload⟩ := load_of_groupOf hgroup
  let x' : AutoClaim := { x with start := s.cursor }
  let range := s.data.pel_range g s.cursor ID_MAX
  have hrange : ∀ e ∈ range, (s.data.pels g)[e.1]? = some e.2 := fun e he => (mem_range.mp he).1
  obtain ⟨piece, rest, m, hscan, hfound, hdata, hexamined, hlen, hsome⟩ :=
    autoLoop_examines call.now c x' s.data.entries g (x.count * 10)
      ((range_increasing _ _ _).first (x.count * 10 + 1))
      { claimed := [], deleted := [], next := ID_MIN } s.data rfl
      fun e he => hrange e ((first_sublist _ _).mem he)
  have htake : first (x.count * 10 + 1) range = range.take (x.count * 10 + 1) := by
    unfold first
    rw [if_neg (Nat.succ_ne_zero _)]
  change first (x.count * 10 + 1) range = piece ++ rest at hscan
  -- the scan reads one more than is examined, so the cursor is where the rest starts
  have hhead : rest.head? = (rest ++ range.drop (x.count * 10 + 1)).head? := by
    cases rest with
    | cons e rest => rfl
    | nil =>
        have hshort : range.length ≤ x.count * 10 + 1 := by
          by_contra hlong
          have hfull := congrArg List.length hscan
          rw [htake, List.length_take, List.append_nil] at hfull
          omega
        rw [List.drop_of_length_le hshort]
        rfl
  refine ⟨piece, rest ++ range.drop (x.count * 10 + 1), m,
    !(piece.filterMap (claimOf call.now x s.data.entries)).isEmpty, ?_, ?_,
    ⟨hexamined.inside, hexamined.outside⟩, ?_⟩
  · rw [← List.append_assoc, ← hscan, htake, List.take_append_drop]
  · have hparse : parseAutoClaim (min_idle :: fmt_id s.cursor :: call.opts) = .ok x' := by
      simp only [parseAutoClaim, hidle, range_start_fmt_id]
      exact hopts
    have hloop : autoLoop call.now g c x' (x'.count * 10)
        (first (x'.count * 10 + 1) (s.data.pel_range g x'.start ID_MAX))
        { claimed := [], deleted := [], next := ID_MIN } s.data =
          ({ claimed := piece.filterMap (claimOf call.now x s.data.entries)
             deleted := goneIds s.data.entries (piece.map Prod.fst)
             next := (rest.head?.map Prod.fst).getD ID_MIN }, s.data.setPels g m) :=
      Prod.ext hfound hdata
    unfold Session.call xautoclaim
    rw [if_neg (by simp), hload, hparse, hgroup]
    simp only
    rw [hloop, hhead]
  · intro hne
    refine hsome hpos (Nat.mul_ne_zero (by omega) (by decide)) ?_
    change first (x.count * 10 + 1) range ≠ []
    rw [htake]
    intro hnil
    rw [List.take_eq_nil_iff] at hnil
    exact hnil.elim (Nat.succ_ne_zero _) hne

variable (g c) in
/-- What calls have made of a session whose pending entries they examined in these pieces,
one piece a call. -/
structure Covers (calls : Nat → Call) (xs : Nat → AutoClaim) (pieces : List (List (Id × Pel)))
    (s s' : Session) : Prop where
  cursor : s'.cursor = ID_MIN
  claimed : s'.claimed = s.claimed ++
    (pieces.mapIdx fun i piece =>
      piece.filterMap (claimOf (calls i).now (xs i) s.data.entries)).flatten
  deleted : s'.deleted = s.deleted ++ goneIds s.data.entries (pieces.flatten.map Prod.fst)
  examined : ∀ i piece, pieces[i]? = some piece → ∀ e ∈ piece,
    (s'.data.pels g)[e.1]? = examinedPel (calls i).now c (xs i) s.data.entries e
  unexamined : ∀ a ∉ pieces.flatten.map Prod.fst, (s'.data.pels g)[a]? = (s.data.pels g)[a]?
  entries : s'.data.entries = s.data.entries
  kind : s'.data.kind = s.data.kind
  groups : s'.data.groups = s.data.groups
  others : SameElse g s.data s'.data
  consumers : ∀ c' ≠ c, (s'.data.cons g)[c']? = (s.data.cons g)[c']?

theorem getElem?_touch_con (d : KeyData) (now : UInt64) (active : Bool) {c' : Bytes} (hne : c' ≠ c) :
    ((d.touch_con now g c active).cons g)[c']? = (d.cons g)[c']? := by
  have hcmp : compare c c' ≠ .eq := fun heq => hne (Std.LawfulEqCmp.eq_of_compare heq).symm
  simp [KeyData.touch_con, KeyData.save_con, Std.ExtTreeMap.getElem?_insert, hcmp]

section Step

variable {calls : Nat → Call} {xs : Nat → AutoClaim} {s : Session} {piece : List (Id × Pel)}
  {m : Std.ExtTreeMap Id Pel}

/-- The last call leaves nothing to examine. -/
theorem Covers.last (active : Bool)
    (h : Examined (calls 0).now c (xs 0) s.data.entries piece (s.data.pels g) m) :
    Covers g c calls xs [piece] s
      { cursor := ID_MIN
        data := (s.data.setPels g m).touch_con (calls 0).now g c active
        claimed := s.claimed ++ piece.filterMap (claimOf (calls 0).now (xs 0) s.data.entries)
        deleted := s.deleted ++ goneIds s.data.entries (piece.map Prod.fst) } where
  cursor := rfl
  claimed := by simp
  deleted := by simp
  examined := by
    intro i piece' hi e he
    cases i with
    | succ i => cases hi
    | zero =>
        obtain rfl := Option.some.inj hi
        change ((s.data.setPels g m).pels g)[e.1]? = _
        rw [KeyData.setPels_pels]
        exact h.inside e he
  unexamined := by
    intro a ha
    rw [List.flatten_singleton] at ha
    change ((s.data.setPels g m).pels g)[a]? = _
    rw [KeyData.setPels_pels]
    exact h.outside a ha
  entries := rfl
  kind := rfl
  groups := rfl
  others := (SameElse.refl.setPels m).save_con c _
  consumers := fun _ hne => getElem?_touch_con _ _ _ hne

/-- One call, and then those that examine the other pieces. -/
theorem Covers.cons {pieces : List (List (Id × Pel))} {cursor : Id} {s' : Session} (active : Bool)
    (h : Examined (calls 0).now c (xs 0) s.data.entries piece (s.data.pels g) m)
    (hdisjoint : ∀ e ∈ piece, e.1 ∉ pieces.flatten.map Prod.fst)
    (hrest : Covers g c (fun i => calls (i + 1)) (fun i => xs (i + 1)) pieces
      { cursor := cursor
        data := (s.data.setPels g m).touch_con (calls 0).now g c active
        claimed := s.claimed ++ piece.filterMap (claimOf (calls 0).now (xs 0) s.data.entries)
        deleted := s.deleted ++ goneIds s.data.entries (piece.map Prod.fst) } s') :
    Covers g c calls xs (piece :: pieces) s s' where
  cursor := hrest.cursor
  claimed := by
    rw [hrest.claimed, List.mapIdx_cons, List.flatten_cons, List.append_assoc]
    rfl
  deleted := by
    rw [hrest.deleted, List.flatten_cons, List.map_append]
    unfold goneIds
    rw [List.filter_append, List.append_assoc]
    rfl
  examined := by
    intro i piece' hi e he
    cases i with
    | succ i => exact hrest.examined i piece' hi e he
    | zero =>
        obtain rfl := Option.some.inj hi
        rw [hrest.unexamined _ (hdisjoint e he)]
        change ((s.data.setPels g m).pels g)[e.1]? = _
        rw [KeyData.setPels_pels]
        exact h.inside e he
  unexamined := by
    intro a ha
    rw [List.flatten_cons, List.map_append, List.mem_append, not_or] at ha
    rw [hrest.unexamined a ha.2]
    change ((s.data.setPels g m).pels g)[a]? = _
    rw [KeyData.setPels_pels]
    exact h.outside a ha.1
  entries := hrest.entries
  kind := hrest.kind
  groups := hrest.groups
  others := by
    have hthis : SameElse g s.data ((s.data.setPels g m).touch_con (calls 0).now g c active) :=
      (SameElse.refl.setPels m).save_con c _
    constructor
    · exact fun g' hne => (hrest.others.groups g' hne).trans (hthis.groups g' hne)
    · exact fun g' hne => (hrest.others.pels g' hne).trans (hthis.pels g' hne)
    · exact fun g' hne => (hrest.others.cons g' hne).trans (hthis.cons g' hne)
  consumers := by
    intro c' hne
    rw [hrest.consumers c' hne]
    exact getElem?_touch_con _ _ _ hne

end Step

/-- A pending entry behind the piece is read again as it was. -/
theorem pel_range_rest {d : KeyData} (now : UInt64) (active : Bool) {x : AutoClaim}
    {piece rest : List (Id × Pel)} {e : Id × Pel} {cursor : Id} {m : Std.ExtTreeMap Id Pel}
    (hrange : d.pel_range g cursor ID_MAX = piece ++ e :: rest)
    (h : Examined now c x d.entries piece (d.pels g) m) :
    ((d.setPels g m).touch_con now g c active).pel_range g e.1 ID_MAX = e :: rest := by
  have hinc : Increasing (piece ++ e :: rest) := hrange ▸ range_increasing _ _ _
  obtain ⟨-, hback, hacross⟩ := List.pairwise_append.mp hinc
  refine Increasing.eq_of_mem_iff (range_increasing _ _ _) hback ?_
  intro e'
  have hold : e' ∈ piece ++ e :: rest ↔ (d.pels g)[e'.1]? = some e'.2 ∧ cursor ≤ e'.1 ∧ e'.1 ≤ ID_MAX := by
    rw [← hrange]
    exact mem_range
  have hstart : cursor ≤ e.1 := by
    have hmem : e ∈ d.pel_range g cursor ID_MAX := hrange ▸ List.mem_append_right _ List.mem_cons_self
    exact (mem_range.mp hmem).2.1
  have hnew : ((d.setPels g m).touch_con now g c active).pels g = m := KeyData.setPels_pels d g m
  have hsame : e.1 ≤ e'.1 → m[e'.1]? = (d.pels g)[e'.1]? := by
    intro hle
    refine h.outside _ fun hmem => ?_
    obtain ⟨e₀, he₀, heq⟩ := List.mem_map.mp hmem
    exact absurd (heq ▸ hacross e₀ he₀ e List.mem_cons_self) (not_lt_of_ge hle)
  rw [KeyData.pel_range, mem_range, hnew]
  constructor
  · rintro ⟨hget, hle, hmax⟩
    rw [hsame hle] at hget
    rcases List.mem_append.mp (hold.mpr ⟨hget, le_trans hstart hle, hmax⟩) with hfront | hmem
    · exact absurd (hacross e' hfront e List.mem_cons_self) (not_lt_of_ge hle)
    · exact hmem
  · intro hmem
    obtain ⟨hget, -, hmax⟩ := hold.mp (List.mem_append_right _ hmem)
    have hle : e.1 ≤ e'.1 := by
      rcases List.mem_cons.mp hmem with rfl | hmem
      · exact le_refl _
      · exact le_of_lt ((List.pairwise_cons.mp hback).1 e' hmem)
    exact ⟨(hsame hle).trans hget, hle, hmax⟩

variable (key c min_idle) in
/-- Calls from a cursor on go through what is pending behind it. -/
theorem Session.after_covers (hidle : parse_strict_i64 min_idle = some idle) (n : Nat)
    (calls : Nat → Call) (xs : Nat → AutoClaim) (hxs : ∀ i, (calls i).parsed idle = .ok (xs i))
    {s : Session} {r : Header × Group} (hgroup : groupOf s.data g = .ok (some r))
    (hn : (s.data.pel_range g s.cursor ID_MAX).length = n) :
    ∃ pieces, pieces ≠ [] ∧ pieces.flatten = s.data.pel_range g s.cursor ID_MAX ∧
      pieces.length ≤ n + 1 ∧
      (∃ s', s.after key g c min_idle pieces.length calls = .ok s' ∧
        Covers g c calls xs pieces s s') ∧
      ∀ k, 0 < k → k < pieces.length →
        ∃ s', s.after key g c min_idle k calls = .ok s' ∧ s'.cursor ≠ ID_MIN := by
  induction n using Nat.strong_induction_on generalizing calls xs s with
  | _ n ih =>
      obtain ⟨piece, rest, m, active, hrange, hcall, hexamined, hsome⟩ :=
        Session.call_spec key c hgroup hidle (hxs 0)
      cases rest with
      | nil =>
          refine ⟨[piece], List.cons_ne_nil _ _, ?_, ?_, ⟨_, ?_, Covers.last active hexamined⟩, ?_⟩
          · rw [hrange, List.flatten_singleton, List.append_nil]
          · exact Nat.succ_le_succ (Nat.zero_le n)
          · rw [List.length_singleton, Session.after, hcall]
            rfl
          · intro k hpos hlt
            rw [List.length_singleton] at hlt
            omega
      | cons e rest =>
          have hne : piece ≠ [] := hsome (by simp [hrange])
          have hshorter : (e :: rest).length < n := by
            have hpos := List.length_pos_of_ne_nil hne
            rw [← hn, hrange, List.length_append]
            omega
          obtain ⟨-, -, hacross⟩ := List.pairwise_append.mp
            (hrange ▸ range_increasing _ _ _ : Increasing (piece ++ e :: rest))
          have hagain := pel_range_rest (calls 0).now active hrange hexamined
          obtain ⟨pieces, hpieces, hflat, hlen, ⟨s', hafter, hcovers⟩, hbetween⟩ :=
            ih _ hshorter (fun i => calls (i + 1)) (fun i => xs (i + 1)) (fun i => hxs (i + 1))
              (s := { cursor := e.1
                      data := (s.data.setPels g m).touch_con (calls 0).now g c active
                      claimed := s.claimed ++
                        piece.filterMap (claimOf (calls 0).now (xs 0) s.data.entries)
                      deleted := s.deleted ++ goneIds s.data.entries (piece.map Prod.fst) })
              hgroup (congrArg List.length hagain)
          replace hflat : pieces.flatten = e :: rest := hflat.trans hagain
          have hdisjoint : ∀ e' ∈ piece, e'.1 ∉ pieces.flatten.map Prod.fst := by
            intro e' he' hmem
            rw [hflat] at hmem
            obtain ⟨e'', he'', heq⟩ := List.mem_map.mp hmem
            exact absurd heq (ne_of_gt (hacross e' he' e'' he''))
          have hstep : ∀ k, s.after key g c min_idle (k + 1) calls = Session.after key g c min_idle k
              (fun i => calls (i + 1)) _ := fun k => by
            rw [Session.after, hcall]
          refine ⟨piece :: pieces, List.cons_ne_nil _ _, ?_, ?_,
            ⟨s', (hstep _).trans hafter, Covers.cons active hexamined hdisjoint hcovers⟩, ?_⟩
          · rw [List.flatten_cons, hflat, hrange]
          · rw [List.length_cons]
            omega
          · intro k hpos hlt
            obtain ⟨k, rfl⟩ := Nat.exists_eq_succ_of_ne_zero (Nat.ne_of_gt hpos)
            rw [Nat.succ_eq_add_one, hstep]
            by_cases hk : k = 0
            · subst hk
              refine ⟨_, rfl, ?_⟩
              obtain ⟨e', he'⟩ := List.exists_mem_of_ne_nil _ hne
              exact ne_of_gt (lt_of_le_of_lt (ID_MIN_le e'.1) (hacross e' he' e List.mem_cons_self))
            · rw [List.length_cons] at hlt
              exact hbetween k (Nat.pos_of_ne_zero hk) (by omega)

/-- Calls that start at 0-0, each with the cursor of the last and any options that are
accepted, are back at 0-0 after finitely many.  Each pending entry is in the piece of one
call: it is claimed if it is idle and its entry is there, it is dropped if the entry is
gone, and nothing else changes. -/
theorem autoclaim_covers (key c : Bytes) {g min_idle : Bytes} {idle : Int64} {d : KeyData}
    {r : Header × Group} (hgroup : groupOf d g = .ok (some r))
    (hidle : parse_strict_i64 min_idle = some idle) (calls : Nat → Call) (xs : Nat → AutoClaim)
    (hxs : ∀ i, (calls i).parsed idle = .ok (xs i)) :
    ∃ pieces, pieces ≠ [] ∧ pieces.flatten = (d.pels g).toList ∧
      pieces.length ≤ (d.pels g).toList.length + 1 ∧
      (∃ s', (Session.start d).after key g c min_idle pieces.length calls = .ok s' ∧
        Covers g c calls xs pieces (Session.start d) s') ∧
      ∀ k, 0 < k → k < pieces.length →
        ∃ s', (Session.start d).after key g c min_idle k calls = .ok s' ∧ s'.cursor ≠ ID_MIN := by
  have hall : d.pel_range g ID_MIN ID_MAX = (d.pels g).toList := by
    refine List.filter_eq_self.mpr fun e _ => ?_
    rw [Bool.and_eq_true]
    exact ⟨decide_eq_true (ID_MIN_le e.1), decide_eq_true (le_ID_MAX e.1)⟩
  obtain ⟨pieces, hpieces, hflat, hlen, hafter, hbetween⟩ :=
    Session.after_covers key c min_idle hidle _ calls xs hxs (s := Session.start d) hgroup rfl
  refine ⟨pieces, hpieces, hflat.trans hall, ?_, hafter, hbetween⟩
  rw [← hall]
  exact hlen

end Calls

/-- One entry that is pending. -/
def onePending : KeyData :=
  { kind := .stream { len := 1, last := ⟨5, 1⟩, added := 1, maxdel := ID_MIN }
    entries := (∅ : Entries).insert ⟨5, 1⟩ [[102], [118]]
    groups := (∅ : Std.ExtTreeMap Bytes Group).insert [2] { last := ⟨5, 1⟩, read := 1 }
    pels := fun _ => (∅ : Std.ExtTreeMap Id Pel).insert ⟨5, 1⟩ { time := 0, count := 1, owner := [3] }
    cons := fun _ => (∅ : Std.ExtTreeMap Bytes Con).insert [3] { seen := 0, active := 0 } }

theorem group_onePending :
    groupOf onePending [2] =
      .ok (some ({ len := 1, last := ⟨5, 1⟩, added := 1, maxdel := ID_MIN },
        { last := ⟨5, 1⟩, read := 1 })) := by
  have hget : onePending.groups[([2] : Bytes)]? = some { last := ⟨5, 1⟩, read := 1 } :=
    Std.ExtTreeMap.getElem?_insert_self
  unfold groupOf
  rw [hget]
  rfl

theorem zero_text : parse_strict_i64 [48] = some 0 := by
  decide +kernel

theorem onePending_covered :
    ∃ pieces, pieces ≠ [] ∧ pieces.flatten = (onePending.pels [2]).toList ∧
      pieces.length ≤ (onePending.pels [2]).toList.length + 1 ∧
      (∃ s', (Session.start onePending).after [1] [2] [4] [48] pieces.length
          (fun _ => { now := 9, opts := [] }) = .ok s' ∧
        Covers [2] [4] (fun _ => { now := 9, opts := [] })
          (fun _ => { min_idle := 0, start := ID_MIN, count := 100, justid := false })
          pieces (Session.start onePending) s') ∧
      ∀ k, 0 < k → k < pieces.length →
        ∃ s', (Session.start onePending).after [1] [2] [4] [48] k
          (fun _ => { now := 9, opts := [] }) = .ok s' ∧ s'.cursor ≠ ID_MIN :=
  autoclaim_covers [1] [4] group_onePending zero_text _ _ fun _ => rfl

/-- A count above a tenth of the largest integer is refused, though it is positive. -/
theorem large_count_refused :
    ∃ v n, parse_int v = .ok n ∧ 0 < n.toInt ∧
      xautoclaim 9 [1] [2] [4] [[48], fmt_id ID_MIN, utf8 "COUNT", v] onePending =
        .error (utf8Err "COUNT must be > 0") := by
  have hstrict : parse_strict_i64 (utf8 "922337203685477581") = some 922337203685477581 := by
    decide +kernel
  have hint : parse_int (utf8 "922337203685477581") = .ok 922337203685477581 := by
    rw [parse_int, hstrict]
  have hword : isWord (utf8 "COUNT") "COUNT" = true := by decide +kernel
  have hparse : parseAutoClaim [[48], fmt_id ID_MIN, utf8 "COUNT", utf8 "922337203685477581"] =
      .error (utf8Err "COUNT must be > 0") := by
    unfold parseAutoClaim
    simp only [zero_text, range_start_fmt_id, List.length_cons, parseAutoOpts, hword, if_true, hint]
    exact if_pos (.inr (by decide))
  refine ⟨utf8 "922337203685477581", 922337203685477581, hint, by decide, ?_⟩
  unfold xautoclaim
  rw [hparse]
  rfl

end Stream
end StrikeDB
