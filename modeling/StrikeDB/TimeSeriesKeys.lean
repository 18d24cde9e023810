import StrikeDB.TimeSeries

/-!
# StrikeDB: the keys of time series

* `point_key_injective`: a point key tells series, time and number.
* `compare_point_key`: points of a series are in the order of their times, then of
  their numbers.
* `inRange_point`, `not_inRange_foreign`: the bounds of a read take in exactly the
  points of its series between its times, and no point of a series apart from it.
* `shard_of_series`: a tagged series lies in one shard.
-/

namespace StrikeDB
namespace TimeSeries

/-! ## Point keys -/

/-- The part of a point key behind the series. -/
def tail (ts seq : UInt64) : Bytes := beBytes 8 ts.toNat ++ (0x3a :: beBytes 8 seq.toNat)

theorem point_key_eq (series : Bytes) (ts seq : UInt64) :
    point_key series ts seq = seriesKey series ++ tail ts seq := rfl

@[simp] theorem tail_length (ts seq : UInt64) : (tail ts seq).length = 17 := by
  simp [tail]

theorem toNat_lt_pow (n : UInt64) : n.toNat < 256 ^ 8 := by
  have := n.toNat_lt
  omega

theorem beBytes_injective {m n : UInt64} (h : beBytes 8 m.toNat = beBytes 8 n.toNat) : m = n := by
  have hnat := congrArg beNat h
  rw [beNat_beBytes (toNat_lt_pow m), beNat_beBytes (toNat_lt_pow n)] at hnat
  exact UInt64.toNat_inj.mp hnat

theorem tail_injective {ts ts' seq seq' : UInt64} (h : tail ts seq = tail ts' seq') :
    ts = ts' ∧ seq = seq' := by
  obtain ⟨hts, hseq⟩ := List.append_inj h (by simp)
  exact ⟨beBytes_injective hts, beBytes_injective (List.cons.inj hseq).2⟩

theorem seriesKey_injective {a b : Bytes} (h : seriesKey a = seriesKey b) : a = b := by
  unfold seriesKey at h
  exact List.append_cancel_left (List.append_cancel_right h)

/-- A point key tells series, time and number. -/
theorem point_key_injective {a b : Bytes} {ts ts' seq seq' : UInt64}
    (h : point_key a ts seq = point_key b ts' seq') : a = b ∧ ts = ts' ∧ seq = seq' := by
  rw [point_key_eq, point_key_eq] at h
  obtain ⟨hseries, htail⟩ := List.append_inj' h (by simp)
  exact ⟨seriesKey_injective hseries, tail_injective htail⟩

theorem decode_point_key (i64_as_f64 : Int64 → UInt64) (series : Bytes) (ts seq bits : UInt64) :
    decode_point i64_as_f64 (point_key series ts seq) (.float bits) = some (ts, bits) := by
  have hlen : (point_key series ts seq).length = (seriesKey series).length + 17 := by
    rw [point_key_eq, List.length_append, tail_length]
  have hdrop : (point_key series ts seq).drop ((point_key series ts seq).length - 17) =
      tail ts seq := by
    rw [hlen, Nat.add_sub_cancel, point_key_eq, List.drop_left]
  have htake : (tail ts seq).take 8 = beBytes 8 ts.toNat := by
    rw [tail, List.take_left' (by simp)]
  rw [decode_point, if_neg (by omega), hdrop, htake, beNat_beBytes (toNat_lt_pow ts),
    UInt64.ofNat_toNat]

theorem compare_append_left (p a b : Bytes) : compare (p ++ a) (p ++ b) = compare a b := by
  have hself : compare p p = .eq := Std.LawfulEqCmp.compare_eq_iff_eq.mpr rfl
  rw [compare_append_of_length rfl, hself, Ordering.eq_then]

theorem compare_beBytes_toNat (m n : UInt64) :
    compare (beBytes 8 m.toNat) (beBytes 8 n.toNat) = compare m.toNat n.toNat :=
  compare_beBytes (toNat_lt_pow m) (toNat_lt_pow n)

/-- Points of a series are in the order of their times, then of their numbers. -/
theorem compare_point_key (series : Bytes) (ts ts' seq seq' : UInt64) :
    compare (point_key series ts seq) (point_key series ts' seq') =
      (compare ts.toNat ts'.toNat).then (compare seq.toNat seq'.toNat) := by
  have hsep : compare ((0x3a : UInt8) :: beBytes 8 seq.toNat) (0x3a :: beBytes 8 seq'.toNat) =
      compare seq.toNat seq'.toNat := by
    have happ := compare_append_left [0x3a] (beBytes 8 seq.toNat) (beBytes 8 seq'.toNat)
    rw [compare_beBytes_toNat] at happ
    exact happ
  rw [point_key_eq, point_key_eq, compare_append_left, tail, tail,
    compare_append_of_length (by simp), compare_beBytes_toNat, hsep]

/-! ## The end of a range -/

/-- The carry runs through a field that is all ones and stops in any other. -/
theorem carry_leBytes (w : Nat) {m : Nat} (h : m < 256 ^ w) (r : Bytes) :
    carry (leBytes w m ++ r) =
      if m + 1 = 256 ^ w then List.replicate w 0 ++ carry r else leBytes w (m + 1) ++ r := by
  induction w generalizing m with
  | zero =>
      have hm : m = 0 := by simpa using h
      subst hm
      rfl
  | succ w ih =>
      rw [pow_succ] at h
      have hdiv : m / 256 < 256 ^ w := Nat.div_lt_of_lt_mul (by omega)
      have hbyte : UInt8.ofNat m = 0xFF ↔ m % 256 = 255 := by
        rw [← UInt8.toNat_inj, UInt8.toNat_ofNat']
        rfl
      rw [leBytes, List.cons_append, carry, ih hdiv]
      by_cases hff : m % 256 = 255
      · have hnext : (m + 1) / 256 = m / 256 + 1 := by omega
        have hzero : UInt8.ofNat (m + 1) = 0 := by
          rw [← UInt8.toNat_inj, UInt8.toNat_ofNat']
          have : (m + 1) % 256 = 0 := by omega
          exact this
        rw [if_pos (hbyte.mpr hff)]
        by_cases hall : m / 256 + 1 = 256 ^ w
        · rw [if_pos hall, if_pos (by rw [pow_succ]; omega)]
          rfl
        · rw [if_neg hall, if_neg (by rw [pow_succ]; omega), leBytes, hnext, hzero]
          rfl
      · have hnext : (m + 1) / 256 = m / 256 := by omega
        have hone : UInt8.ofNat m + 1 = UInt8.ofNat (m + 1) := by
          rw [UInt8.ofNat_add]
          rfl
        rw [if_neg (fun h => hff (hbyte.mp h)), if_neg (by rw [pow_succ]; omega), leBytes, hnext,
          hone]
        rfl

/-- What a read ends before, when its last time is not the greatest. -/
theorem nudge_of_lt (p : Bytes) {to_ : UInt64} (h : to_.toNat + 1 < 2 ^ 64) :
    nudge (p ++ beBytes 8 to_.toNat) = p ++ beBytes 8 (to_.toNat + 1) := by
  rw [nudge, beBytes, List.reverse_append, List.reverse_reverse,
    carry_leBytes 8 (toNat_lt_pow to_), if_neg (by omega), List.reverse_append, List.reverse_reverse]
  rfl

/-- And when it is. -/
theorem nudge_of_max (series : Bytes) {to_ : UInt64} (h : to_.toNat + 1 = 2 ^ 64) :
    nudge (seriesKey series ++ beBytes 8 to_.toNat) =
      tsTag ++ series ++ [0x7d, 0x3b] ++ List.replicate 8 0 := by
  have hcarry : carry (seriesKey series).reverse = 0x3b :: 0x7d :: (tsTag ++ series).reverse := by
    rw [seriesKey, List.reverse_append]
    rfl
  rw [nudge, beBytes, List.reverse_append, List.reverse_reverse,
    carry_leBytes 8 (toNat_lt_pow to_), if_pos (by omega), hcarry, List.reverse_append,
    List.reverse_replicate]
  simp

/-! ## What the bounds take in -/

theorem isLE_compare_toNat (m n : UInt64) :
    (compare m.toNat n.toNat).isLE = true ↔ m ≤ n := by
  rw [Nat.isLE_compare, UInt64.le_iff_toNat_le]

/-- The lower bound of a range. -/
theorem start_le_point (series : Bytes) (from_ ts seq : UInt64) :
    (compare (seriesKey series ++ beBytes 8 from_.toNat) (point_key series ts seq)).isLE = true ↔
      from_ ≤ ts := by
  have hcmp : compare (beBytes 8 from_.toNat ++ []) (tail ts seq) =
      (compare from_.toNat ts.toNat).then .lt := by
    rw [tail, compare_append_of_length (by simp), compare_beBytes_toNat]
    rfl
  rw [List.append_nil] at hcmp
  rw [point_key_eq, compare_append_left, hcmp, ← isLE_compare_toNat]
  cases compare from_.toNat ts.toNat <;> simp [Ordering.then]

/-- The upper bound of a range. -/
theorem point_lt_end (series : Bytes) (to_ ts seq : UInt64) :
    (compare (point_key series ts seq)
      (nudge (seriesKey series ++ beBytes 8 to_.toNat))).isLT = true ↔ ts ≤ to_ := by
  have hlt := to_.toNat_lt
  by_cases hmax : to_.toNat + 1 < 2 ^ 64
  · have hcmp : compare (tail ts seq) (beBytes 8 (to_.toNat + 1) ++ []) =
        (compare ts.toNat (to_.toNat + 1)).then .gt := by
      rw [tail, compare_append_of_length (by simp),
        compare_beBytes (toNat_lt_pow ts) (by omega)]
      rfl
    rw [List.append_nil] at hcmp
    rw [nudge_of_lt _ hmax, point_key_eq, compare_append_left, hcmp, UInt64.le_iff_toNat_le]
    rcases Nat.lt_trichotomy ts.toNat (to_.toNat + 1) with hlt | heq | hgt
    · rw [Nat.compare_eq_lt.mpr hlt]
      simp [Ordering.then]
      omega
    · rw [Nat.compare_eq_eq.mpr heq]
      simp [Ordering.then]
      omega
    · rw [Nat.compare_eq_gt.mpr hgt]
      simp [Ordering.then]
      omega
  · have hle : ts ≤ to_ := by
      rw [UInt64.le_iff_toNat_le]
      have := ts.toNat_lt
      omega
    have hkey : point_key series ts seq =
        (tsTag ++ series ++ [0x7d]) ++ (0x3a :: tail ts seq) := by
      simp [point_key_eq, seriesKey]
    have hend : tsTag ++ series ++ [0x7d, 0x3b] ++ List.replicate 8 0 =
        (tsTag ++ series ++ [0x7d]) ++ (0x3b :: List.replicate 8 (0 : UInt8)) := by
      simp
    rw [nudge_of_max series (by omega), hkey, hend, compare_append_left, List.compare_cons_cons]
    exact ⟨fun _ => hle, fun _ => rfl⟩

/-- A range takes in the points of its series between its times. -/
theorem inRange_point (series : Bytes) (from_ to_ ts seq : UInt64) :
    FlushCore.inRange (seriesKey series ++ beBytes 8 from_.toNat)
      (nudge (seriesKey series ++ beBytes 8 to_.toNat)) (point_key series ts seq) =
      (from_ ≤ ts && ts ≤ to_) := by
  rw [Bool.eq_iff_iff, FlushCore.inRange, Bool.and_eq_true, start_le_point, point_lt_end]
  simp

/-- And `latest` all points of its series. -/
theorem inRange_latest (series : Bytes) (ts seq : UInt64) :
    FlushCore.inRange (seriesKey series) (seriesKey series ++ List.replicate 17 0xFF)
      (point_key series ts seq) = true := by
  rw [FlushCore.inRange, Bool.and_eq_true, point_key_eq, compare_append_left]
  constructor
  · have happ := compare_append_left (seriesKey series) [] (tail ts seq)
    rw [List.append_nil] at happ
    rw [happ]
    cases tail ts seq <;> rfl
  · have hmax : (List.replicate 17 0xFF : Bytes) =
        beBytes 8 (2 ^ 64 - 1) ++ List.replicate 9 0xFF := by decide
    rw [hmax, tail, compare_append_of_length (by simp), compare_beBytes (toNat_lt_pow ts) (by decide)]
    have hlt := ts.toNat_lt
    have hsep : compare ((0x3a : UInt8) :: beBytes 8 seq.toNat) (List.replicate 9 0xFF) = .lt := by
      rw [List.replicate_succ, List.compare_cons_cons]
      rfl
    rw [hsep]
    rcases Nat.lt_or_eq_of_le (Nat.le_of_lt_succ (n := 2 ^ 64 - 1) hlt) with hlt | heq
    · rw [Nat.compare_eq_lt.mpr hlt]
      rfl
    · rw [Nat.compare_eq_eq.mpr heq]
      rfl

/-! ## Other series -/

theorem lt_zeros {n : Nat} {r : Bytes} (h : compare r (List.replicate n 0) = .lt) : r.length < n := by
  induction n generalizing r with
  | zero => cases r <;> cases h
  | succ n ih =>
      cases r with
      | nil => exact Nat.succ_pos n
      | cons b r =>
          rw [List.replicate_succ, List.compare_cons_cons, Ordering.then_eq_lt] at h
          rcases h with h | ⟨_, h⟩
          · exact absurd (Std.compare_eq_lt.mp h) (by simp)
          · exact Nat.succ_lt_succ (ih h)

/-- A name with a brace and a byte behind it begins another such name. -/
theorem prefix_braced {x y : Bytes} {c d : UInt8} (hc : c ≠ 0x7d)
    (h : x ++ [0x7d, c] <+: y ++ [0x7d, d]) : x = y ∧ c = d ∨ x ++ [0x7d, c] <+: y := by
  have hsplit : y ++ [0x7d, d] = y ++ [0x7d] ++ [d] := by simp
  have hsplit' : x ++ [0x7d, c] = x ++ [0x7d] ++ [c] := by simp
  rw [hsplit, List.prefix_concat_iff, List.prefix_concat_iff] at h
  rcases h with h | h | h
  · rw [hsplit'] at h
    obtain ⟨hxy, hcd⟩ := List.append_inj' h rfl
    exact Or.inl ⟨List.append_cancel_right hxy, (List.cons.inj hcd).1⟩
  · rw [hsplit'] at h
    obtain ⟨_, hcd⟩ := List.append_inj' h rfl
    exact absurd (List.cons.inj hcd).1 hc
  · exact Or.inr h

/-- What begins a point key is its series, or one name continues the other. -/
theorem name_of_point {a b : Bytes} {c : UInt8} {ts seq : UInt64} (hc : c ≠ 0x7d)
    (h : tsTag ++ a ++ [0x7d, c] <+: point_key b ts seq) :
    a = b ∧ c = 0x3a ∨ a ++ [0x7d, c] <+: b ∨ b ++ [0x7d, 0x3a] <+: a := by
  have hkey : point_key b ts seq = tsTag ++ (b ++ [0x7d, 0x3a] ++ tail ts seq) := by
    simp [point_key_eq, seriesKey]
  rw [hkey, List.append_assoc, List.prefix_append_right_inj] at h
  rcases List.prefix_or_prefix_of_prefix h (List.prefix_append _ (tail ts seq)) with hab | hba
  · rcases prefix_braced hc hab with hab | hab
    · exact Or.inl hab
    · exact Or.inr (Or.inl hab)
  · rcases prefix_braced (by decide) hba with ⟨rfl, rfl⟩ | hba
    · exact Or.inl ⟨rfl, rfl⟩
    · exact Or.inr (Or.inr hba)

theorem seriesKey_prefix_foreign {a b : Bytes} (hne : a ≠ b) (hapart : Apart a b)
    (ts seq : UInt64) : ¬ seriesKey a <+: point_key b ts seq := by
  intro h
  rcases name_of_point (c := 0x3a) (by decide) h with ⟨heq, _⟩ | hab | hba
  · exact hne heq
  · exact hapart.1 hab
  · exact hapart.2 hba

/-- No range takes in a point of a series apart from its own. -/
theorem not_inRange_foreign {a b : Bytes} (hne : a ≠ b) (hapart : Apart a b)
    (from_ to_ ts seq : UInt64) :
    FlushCore.inRange (seriesKey a ++ beBytes 8 from_.toNat)
      (nudge (seriesKey a ++ beBytes 8 to_.toNat)) (point_key b ts seq) = false := by
  rw [← Bool.not_eq_true]
  intro h
  apply seriesKey_prefix_foreign hne hapart ts seq
  by_cases hmax : to_.toNat + 1 < 2 ^ 64
  · rw [nudge_of_lt _ hmax] at h
    exact prefix_of_inRange (List.prefix_append _ _) (List.prefix_append _ _) h
  · have hlt := to_.toNat_lt
    rw [nudge_of_max a (by omega)] at h
    simp only [FlushCore.inRange, Bool.and_eq_true] at h
    have habove : above (seriesKey a) = some (tsTag ++ a ++ [0x7d, 0x3b]) := by
      have hsplit : seriesKey a = tsTag ++ a ++ [0x7d] ++ [0x3a] := by simp [seriesKey]
      have hend : tsTag ++ a ++ [0x7d, 0x3b] = tsTag ++ a ++ [0x7d] ++ [0x3a + 1] := by simp
      rw [hsplit, hend]
      exact above_append_singleton (by decide) _
    refine (prefix_iff_above _ _).mpr ⟨?_, ?_⟩
    · have hself : (compare (seriesKey a) (seriesKey a ++ beBytes 8 from_.toNat)).isLE = true :=
        ((prefix_iff_above _ _).mp (List.prefix_append _ _)).1
      exact Std.TransCmp.isLE_trans hself h.1
    · rintro e he
      obtain rfl : tsTag ++ a ++ [0x7d, 0x3b] = e := Option.some.inj (habove.symm.trans he)
      -- a key from there on would be too long to lie below the end
      by_contra hge
      have hle : (compare (tsTag ++ a ++ [0x7d, 0x3b]) (point_key b ts seq)).isLE = true := by
        have hswap : compare (tsTag ++ a ++ [0x7d, 0x3b]) (point_key b ts seq) =
            (compare (point_key b ts seq) (tsTag ++ a ++ [0x7d, 0x3b])).swap :=
          Std.OrientedCmp.eq_swap
        rw [hswap]
        cases hcmp : compare (point_key b ts seq) (tsTag ++ a ++ [0x7d, 0x3b]) with
        | lt => rw [hcmp] at hge; exact absurd rfl hge
        | eq => rfl
        | gt => rfl
      have hprefix : tsTag ++ a ++ [0x7d, 0x3b] <+: point_key b ts seq := by
        refine prefix_of_inRange (List.prefix_refl _) (List.prefix_append _ (List.replicate 8 0)) ?_
        rw [FlushCore.inRange, hle, h.2]
        rfl
      have hshort : (point_key b ts seq).length < (tsTag ++ a ++ [0x7d, 0x3b]).length + 8 := by
        obtain ⟨r, hr⟩ := hprefix
        have hlt := h.2
        rw [← hr, compare_append_left] at hlt
        have := lt_zeros (Ordering.isLT_iff_eq_lt.mp hlt)
        rw [← hr, List.length_append]
        omega
      rcases name_of_point (c := 0x3b) (by decide) hprefix with ⟨_, h3b⟩ | hab | hba
      · exact absurd h3b (by decide)
      · have hlen := hab.length_le
        simp only [point_key_eq, seriesKey, List.length_append, tail_length, List.length_cons,
          List.length_nil] at hshort hlen
        omega
      · exact hapart.2 hba

theorem not_inRange_latest_foreign {a b : Bytes} (hne : a ≠ b) (hapart : Apart a b)
    (ts seq : UInt64) :
    FlushCore.inRange (seriesKey a) (seriesKey a ++ List.replicate 17 0xFF)
      (point_key b ts seq) = false := by
  rw [← Bool.not_eq_true]
  intro h
  exact seriesKey_prefix_foreign hne hapart _ _
    (prefix_of_inRange (List.prefix_refl _) (List.prefix_append _ _) h)

/-- Every key in the bounds of a read is a key of points. -/
theorem tsTag_of_inRange (series : Bytes) (from_ to_ : UInt64) {k : Key}
    (h : FlushCore.inRange (seriesKey series ++ beBytes 8 from_.toNat)
      (nudge (seriesKey series ++ beBytes 8 to_.toNat)) k = true) : tsTag <+: k := by
  have hseries : tsTag <+: seriesKey series := by
    rw [seriesKey, List.append_assoc]
    exact List.prefix_append _ _
  refine prefix_of_inRange (hseries.trans (List.prefix_append _ _)) ?_ h
  have hlt := to_.toNat_lt
  by_cases hmax : to_.toNat + 1 < 2 ^ 64
  · rw [nudge_of_lt _ hmax]
    exact hseries.trans (List.prefix_append _ _)
  · rw [nudge_of_max series (by omega), List.append_assoc, List.append_assoc]
    exact List.prefix_append _ _

theorem tsTag_of_inRange_latest (series : Bytes) {k : Key}
    (h : FlushCore.inRange (seriesKey series) (seriesKey series ++ List.replicate 17 0xFF) k =
      true) : tsTag <+: k := by
  have hseries : tsTag <+: seriesKey series := by
    rw [seriesKey, List.append_assoc]
    exact List.prefix_append _ _
  exact prefix_of_inRange hseries (hseries.trans (List.prefix_append _ _)) h

/-! ## Shards -/

/-- A tagged series lies in one shard. -/
theorem shard_of_series {series : Bytes} (h : Tagged series) {k : Key}
    (hk : seriesKey series <+: k) : shard_of k = shard_of (seriesKey series) := by
  obtain ⟨b, rest, rfl, hb⟩ := h
  have hinput : ∀ r, hashInput (seriesKey (b :: rest) ++ r) =
      (b :: rest).takeWhile (· ≠ 0x7d) := by
    intro r
    have hdrop : ((seriesKey (b :: rest) ++ r).dropWhile (fun c => c ≠ 0x7b)).drop 1 =
        (b :: rest) ++ (0x7d :: 0x3a :: r) := by
      simp [seriesKey, tsTag]
    have htag : ((b :: rest) ++ (0x7d :: 0x3a :: r)).takeWhile (fun c => c ≠ 0x7d) =
        (b :: rest).takeWhile (· ≠ 0x7d) := by
      induction b :: rest with
      | nil => simp
      | cons c l ih =>
          by_cases hc : c = 0x7d
          · simp [hc]
          · simpa [hc] using ih
    simp only [hashInput, hdrop, htag]
    rw [if_pos]
    refine ⟨by simp [seriesKey, tsTag], by simp, ?_⟩
    simp [hb]
  obtain ⟨r, rfl⟩ := hk
  have hself := hinput []
  rw [List.append_nil] at hself
  simp only [shard_of, hinput r, hself]

end TimeSeries
end StrikeDB
