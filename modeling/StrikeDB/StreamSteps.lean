import StrikeDB.StreamDelivery

/-!
# StrikeDB: commands on consumer groups, one by one

For every command the events it stands for, and that what is stored of the groups
still agrees with their histories when these are appended.
-/

namespace StrikeDB
namespace Stream

open OrderedMap

/-- A group that stays, or whose last delivered ID moves up. -/
theorem last_le_refl {gr : Option Group} (g' : Group) (hg' : gr = some g') :
    ∃ g, gr = some g ∧ g.last ≤ g'.last := ⟨g', hg', le_refl _⟩

theorem getElem?_of_groupOf
    {d : KeyData} {g : Bytes} {s : Header} {gr : Group} (h : groupOf d g = .ok (some (s, gr))) :
    d.groups[g]? = some gr := by
  unfold groupOf at h
  split at h
  · cases h
  · cases h
  · split at h
    · cases h
    · next gr' hgr =>
        cases h
        exact hgr

/-! ## XACK -/

theorem ackOne_eq (g : Bytes) (r : Nat × KeyData) (id : Id) :
    (ackOne g r id).2 = r.2.delPel g id := by
  unfold ackOne
  split
  · rfl
  · next habsent =>
      have hsame : (r.2.pels g).erase id = r.2.pels g := by
        refine Std.ExtTreeMap.ext_getElem? ?_
        intro a
        rw [getElem?_erase']
        split
        · next ha =>
            rw [ha]
            exact (Std.ExtTreeMap.getElem?_eq_none habsent).symm
        · rfl
      rw [KeyData.delPel_eq, hsame, KeyData.setPels_self]

theorem ackOne_foldl (g : Bytes) (ids : List Id) (r : Nat × KeyData) :
    (ids.foldl (ackOne g) r).2 = r.2.setPels g (eraseAll (r.2.pels g) ids) := by
  rw [← delPel_foldl]
  induction ids generalizing r with
  | nil => rfl
  | cons id ids ih => rw [List.foldl_cons, List.foldl_cons, ih, ackOne_eq]

/-- IDs are acknowledged in a group. -/
theorem KeyInv.acked
    {d : KeyData} {log : Bytes → List Ev} (h : KeyInv d log) (g : Bytes) (ids : List Id) :
    KeyInv (ids.foldl (ackOne g) (0, d)).2 fun g' => log g' ++ only g (ids.map .acked) g' := by
  rw [ackOne_foldl]
  refine h.update (SameElse.refl.setPels _) ?_
  rw [KeyData.setPels_pels]
  refine (h g).quiet (by simp [Ev.quiet]) last_le_refl ?_ ?_
  · intro id hsound
    rw [ownerOf_eraseAll, owner_append_acked, (h g).owned id (sound_of_append hsound)]
  · intro id c hsound howner
    rw [owner_append_acked] at howner
    split at howner
    · cases howner
    · exact (h g).consumer id c (sound_of_append hsound) howner

/-! ## XCLAIM and XAUTOCLAIM -/

/-- What claims of consumer `c` do to pending entries: of `claimed` it becomes the
owner, `gone` are no longer pending, and which are which the entries say. -/
structure Claims (entries : Entries) (c : Bytes) (claimed gone : List Id)
    (pels pels' : Std.ExtTreeMap Id Pel) : Prop where
  owners : ∀ a, ownerOf pels' a =
    if a ∈ claimed then some c else if a ∈ gone then none else ownerOf pels a
  present : ∀ a ∈ claimed, entries[a]? ≠ none
  absent : ∀ a ∈ gone, entries[a]? = none

namespace Claims

variable {entries : Entries} {c : Bytes} {claimed gone : List Id}
variable {pels pels' : Std.ExtTreeMap Id Pel}

theorem nil : Claims entries c [] [] pels pels where
  owners := by simp
  present := by simp
  absent := by simp

theorem claim
    (h : Claims entries c claimed gone pels pels') {id : Id} {p : Pel}
    (hentry : entries[id]? ≠ none) (hp : p.owner = c) :
    Claims entries c (claimed ++ [id]) gone pels (pels'.insert id p) where
  owners := by
    intro a
    rw [ownerOf_insert, h.owners, hp]
    by_cases ha : a = id
    · simp [ha]
    · simp [ha]
  present := by
    intro a ha
    rw [List.mem_append, List.mem_singleton] at ha
    rcases ha with hold | rfl
    · exact h.present a hold
    · exact hentry
  absent := h.absent

theorem drop
    (h : Claims entries c claimed gone pels pels') {id : Id} (hentry : entries[id]? = none) :
    Claims entries c claimed (gone ++ [id]) pels (pels'.erase id) where
  owners := by
    intro a
    rw [ownerOf_erase, h.owners]
    by_cases ha : a = id
    · have hnot : a ∉ claimed := by
        intro hmem
        exact h.present a hmem (ha ▸ hentry)
      simp [ha ▸ hnot, ha]
    · simp [ha]
  present := h.present
  absent := by
    intro a ha
    rw [List.mem_append, List.mem_singleton] at ha
    rcases ha with hold | rfl
    · exact h.absent a hold
    · exact hentry

/-- An ID without an entry that is not pending either. -/
theorem dropAbsent
    (h : Claims entries c claimed gone pels pels') {id : Id} (hentry : entries[id]? = none)
    (habsent : ownerOf pels' id = none) :
    Claims entries c claimed (gone ++ [id]) pels pels' where
  owners := by
    intro a
    by_cases ha : a = id
    · have hnot : a ∉ claimed := by
        intro hmem
        exact h.present a hmem (ha ▸ hentry)
      rw [ha, habsent]
      simp [ha ▸ hnot]
    · rw [h.owners]
      simp [ha]
  present := h.present
  absent := (h.drop hentry).absent

end Claims

/-- The IDs among `ids` whose entry is gone. -/
def goneIds (entries : Entries) (ids : List Id) : List Id :=
  ids.filter fun id => (entries[id]?).isNone

/-- What the claim of one ID can do. -/
theorem claimOne_cases (now : UInt64) (g c : Bytes) (x : Claim) (r : List (Id × Fields) × KeyData)
    (id : Id) :
    (claimOne now g c x r id = r ∧
      (r.2.entries[id]? = none → ownerOf (r.2.pels g) id = none)) ∨
    (claimOne now g c x r id = (r.1, r.2.delPel g id) ∧ r.2.entries[id]? = none) ∨
    ∃ fields p, claimOne now g c x r id = (r.1 ++ [(id, fields)], r.2.putPel g id p) ∧
      r.2.entries[id]? = some fields ∧ p.owner = c := by
  simp only [claimOne]
  cases hbase : claimBase now g c x.opts.force id r.2 with
  | none =>
      refine Or.inl ⟨rfl, ?_⟩
      intro _
      unfold claimBase at hbase
      split at hbase
      · cases hbase
      · next hp =>
          rw [ownerOf, hp]
          rfl
  | some p =>
      cases hentry : r.2.entries[id]? with
      | none => exact Or.inr (Or.inl ⟨rfl, rfl⟩)
      | some fields =>
          by_cases hidle : x.min_idle > 0 ∧ now.toNat - p.time < x.min_idle
          · exact Or.inl ⟨if_pos hidle, by simp⟩
          · exact Or.inr (Or.inr ⟨fields, _, if_neg hidle, rfl, rfl⟩)

theorem goneIds_concat (entries : Entries) (ids : List Id) (id : Id) :
    goneIds entries (ids ++ [id]) =
      if entries[id]? = none then goneIds entries ids ++ [id] else goneIds entries ids := by
  cases hentry : entries[id]? with
  | none => simp [goneIds, hentry]
  | some fields => simp [goneIds, hentry]

theorem claimOne_foldl (now : UInt64) (g c : Bytes) (x : Claim) (ids : List Id) (d : KeyData) :
    ∃ m, (ids.foldl (claimOne now g c x) ([], d)).2 = d.setPels g m ∧
      Claims d.entries c ((ids.foldl (claimOne now g c x) ([], d)).1.map Prod.fst)
        (goneIds d.entries ids) (d.pels g) m := by
  induction ids using List.reverseRecOn with
  | nil =>
      refine ⟨d.pels g, ?_, ?_⟩
      · simp
      · exact Claims.nil
  | append_singleton ids id ih =>
      obtain ⟨m, hm, hclaims⟩ := ih
      rw [List.foldl_append, List.foldl_cons, List.foldl_nil, goneIds_concat]
      generalize ids.foldl (claimOne now g c x) ([], d) = r at hm hclaims ⊢
      have hpels : r.2.pels g = m := by rw [hm, KeyData.setPels_pels]
      have hentries : r.2.entries = d.entries := by rw [hm, KeyData.setPels_entries]
      rcases claimOne_cases now g c x r id with
        ⟨hr, habsent⟩ | ⟨hr, hentry⟩ | ⟨fields, p, hr, hentry, hp⟩
      · rw [hr]
        refine ⟨m, hm, ?_⟩
        split
        · next hentry =>
            rw [hentries, hpels] at habsent
            exact hclaims.dropAbsent hentry (habsent hentry)
        · exact hclaims
      · rw [hentries] at hentry
        rw [hr, if_pos hentry]
        refine ⟨m.erase id, ?_, hclaims.drop hentry⟩
        rw [KeyData.delPel_eq, hpels, hm, KeyData.setPels_setPels]
      · rw [hentries] at hentry
        rw [hr, if_neg (by simp [hentry])]
        refine ⟨m.insert id p, ?_, ?_⟩
        · rw [KeyData.putPel_eq, hpels, hm, KeyData.setPels_setPels]
        · rw [List.map_append]
          exact hclaims.claim (by simp [hentry]) hp

theorem autoLoop_spec (now : UInt64) (g c : Bytes) (x : AutoClaim) (pels : Std.ExtTreeMap Id Pel)
    (attempts : Nat) (scan : List (Id × Pel)) (f : AutoFound) (d : KeyData)
    (h : Claims d.entries c (f.claimed.map Prod.fst) f.deleted pels (d.pels g)) :
    ∃ m, (autoLoop now g c x attempts scan f d).2 = d.setPels g m ∧
      Claims d.entries c ((autoLoop now g c x attempts scan f d).1.claimed.map Prod.fst)
        (autoLoop now g c x attempts scan f d).1.deleted pels m := by
  induction scan generalizing attempts f d with
  | nil => exact ⟨d.pels g, by simp [autoLoop], h⟩
  | cons e scan ih =>
      obtain ⟨id, p⟩ := e
      rw [autoLoop]
      split
      · exact ⟨d.pels g, by simp, h⟩
      · split
        · next hentry =>
            have hdrop := h.drop hentry
            rw [← KeyData.setPels_pels d g ((d.pels g).erase id), ← KeyData.delPel_eq] at hdrop
            obtain ⟨m, hm, hclaims⟩ :=
              ih (attempts - 1) { f with deleted := f.deleted ++ [id] } (d.delPel g id) hdrop
            rw [KeyData.delPel_eq, KeyData.setPels_setPels] at hm
            exact ⟨m, hm, hclaims⟩
        · next fields hentry =>
            split
            · exact ih (attempts - 1) f d h
            · let p' : Pel :=
                { time := now.toNat
                  count := if x.justid then p.count else p.count + 1
                  owner := c }
              have hclaim : Claims d.entries c (f.claimed.map Prod.fst ++ [id]) f.deleted pels
                  ((d.pels g).insert id p') := h.claim (by simp [hentry]) rfl
              rw [← KeyData.setPels_pels d g ((d.pels g).insert id p'), ← KeyData.putPel_eq]
                at hclaim
              obtain ⟨m, hm, hclaims⟩ :=
                ih (attempts - 1) { f with claimed := f.claimed ++ [(id, fields)] }
                  (d.putPel g id p') (by rw [List.map_append]; exact hclaim)
              rw [KeyData.putPel_eq, KeyData.setPels_setPels] at hm
              exact ⟨m, hm, hclaims⟩

/-- Events of a claim: the entries found gone, and those the consumer got. -/
def claimEvents (c : Bytes) (claimed gone : List Id) : List Ev :=
  gone.map .gone ++ claimed.map (.claimed c)

/-- Pending entries are claimed, and the consumer is touched. -/
theorem KeyInv.claims
    {d d' : KeyData} {log : Bytes → List Ev} (h : KeyInv d log) {g c : Bytes}
    {claimed gone : List Id} {m : Std.ExtTreeMap Id Pel}
    (hclaims : Claims d.entries c claimed gone (d.pels g) m)
    (hsame : SameElse g d d')
    (hpels : d'.pels g = m)
    (hlast : ∀ g', d'.groups[g]? = some g' → ∃ g₀, d.groups[g]? = some g₀ ∧ g₀.last ≤ g'.last)
    (hc : c ∈ d'.cons g) (hcons : ∀ c' ∈ d.cons g, c' ∈ d'.cons g) :
    KeyInv d' fun g' => log g' ++ only g (claimEvents c claimed gone) g' := by
  have howner : ∀ id, owner (log g ++ claimEvents c claimed gone) id =
      if id ∈ claimed then some c else if id ∈ gone then none else owner (log g) id := by
    intro id
    rw [claimEvents, ← List.append_assoc, owner_append_claimed, owner_append_gone]
  refine h.update hsame ((h g).quiet ?_ hlast ?_ ?_)
  · intro ev hev
    simp only [claimEvents, List.mem_append, List.mem_map] at hev
    rcases hev with ⟨id, _, rfl⟩ | ⟨id, _, rfl⟩
    · rfl
    · rfl
  · intro id hsound
    rw [hpels, hclaims.owners, howner, (h g).owned id (sound_of_append hsound)]
  · intro id c' hsound howned
    rw [howner] at howned
    split at howned
    · cases howned
      exact hc
    · split at howned
      · cases howned
      · exact hcons c' ((h g).consumer id c' (sound_of_append hsound) howned)

theorem mem_touch_con (d : KeyData) (now : UInt64) (g c : Bytes) (active : Bool) :
    c ∈ (d.touch_con now g c active).cons g := by
  simp [KeyData.touch_con, KeyData.save_con]

theorem mem_touch_con_of_mem (d : KeyData) (now : UInt64) (g c : Bytes) (active : Bool)
    {c' : Bytes} (h : c' ∈ d.cons g) : c' ∈ (d.touch_con now g c active).cons g := by
  simp [KeyData.touch_con, KeyData.save_con, h]

theorem getElem?_save_group (d : KeyData) (g : Bytes) (gr : Group) :
    (d.save_group g gr).groups[g]? = some gr := by
  simp [KeyData.save_group]

theorem le_raiseLast (gr : Group) (lastid : Option Id) : gr.last ≤ (raiseLast gr lastid).last := by
  unfold raiseLast
  split
  · exact le_refl _
  · split
    · next hlt => exact hlt.le
    · exact le_refl _

theorem KeyInv.xclaim
    {d d' : KeyData} {log : Bytes → List Ev} (h : KeyInv d log) {now : UInt64}
    {key g c : Bytes} {a : List Bytes} {res : Result}
    (hexec : Stream.xclaim now key g c a d = .ok (res, d')) :
    ∃ x es, parseClaim now a = .ok x ∧ res = .claimed x.opts.justid es ∧
      KeyInv d' fun g' =>
        log g' ++ only g (claimEvents c (es.map Prod.fst) (goneIds d.entries x.ids)) g' := by
  unfold Stream.xclaim at hexec
  split at hexec
  · cases hexec
  · split at hexec
    · cases hexec
    · cases hexec
    · next s gr hgroup =>
        split at hexec
        · cases hexec
        · next x hx =>
            cases hexec
            refine ⟨x, _, hx, rfl, ?_⟩
            obtain ⟨m, hm, hclaims⟩ :=
              claimOne_foldl now g c x x.ids (d.save_group g (raiseLast gr x.opts.lastid))
            refine h.claims hclaims ?_ ?_ ?_ (mem_touch_con _ _ _ _ _) ?_
            · rw [hm]
              exact ((SameElse.refl.save_group _).setPels _).save_con _ _
            · rw [hm]
              exact KeyData.setPels_pels _ _ _
            · rw [hm]
              intro g' hg'
              have hsaved := getElem?_save_group d g (raiseLast gr x.opts.lastid)
              cases hg'.symm.trans hsaved
              exact ⟨gr, getElem?_of_groupOf hgroup, le_raiseLast gr x.opts.lastid⟩
            · intro c' hc'
              refine mem_touch_con_of_mem _ _ _ _ _ ?_
              rw [hm]
              exact hc'

theorem KeyInv.xautoclaim
    {d d' : KeyData} {log : Bytes → List Ev} (h : KeyInv d log) {now : UInt64}
    {key g c : Bytes} {a : List Bytes} {res : Result}
    (hexec : Stream.xautoclaim now key g c a d = .ok (res, d')) :
    ∃ next justid es deleted, res = .autoclaimed next justid es deleted ∧
      KeyInv d' fun g' => log g' ++ only g (claimEvents c (es.map Prod.fst) deleted) g' := by
  unfold Stream.xautoclaim at hexec
  split at hexec
  · cases hexec
  · split at hexec
    · cases hexec
    · split at hexec
      · cases hexec
      · next x hx =>
          split at hexec
          · cases hexec
          · cases hexec
          · next s gr hgroup =>
              cases hexec
              refine ⟨_, _, _, _, rfl, ?_⟩
              obtain ⟨m, hm, hclaims⟩ :=
                autoLoop_spec now g c x (d.pels g) (x.count * 10)
                  (first (x.count * 10 + 1) (d.pel_range g x.start ID_MAX))
                  { claimed := [], deleted := [], next := ID_MIN } d Claims.nil
              refine h.claims hclaims ?_ ?_ ?_ (mem_touch_con _ _ _ _ _) ?_
              · rw [hm]
                exact (SameElse.refl.setPels _).save_con _ _
              · rw [hm]
                exact KeyData.setPels_pels _ _ _
              · rw [hm]
                exact last_le_refl
              · intro c' hc'
                refine mem_touch_con_of_mem _ _ _ _ _ ?_
                rw [hm]
                exact hc'

theorem KeyInv.xack
    {d d' : KeyData} {log : Bytes → List Ev} (h : KeyInv d log) {g : Bytes} {a : List Bytes}
    {res : Result} (hexec : Stream.xack g a d = .ok (res, d')) :
    (groupOf d g = .ok none ∧ d' = d) ∨
      ∃ sg ids, groupOf d g = .ok (some sg) ∧ parseIds a = .ok ids ∧
        KeyInv d' fun g' => log g' ++ only g (ids.map .acked) g' := by
  unfold Stream.xack at hexec
  split at hexec
  · cases hexec
  · split at hexec
    · cases hexec
    · next hgroup =>
        cases hexec
        exact Or.inl ⟨hgroup, rfl⟩
    · next sg hgroup =>
        split at hexec
        · cases hexec
        · next ids hids =>
            cases hexec
            exact Or.inr ⟨sg, ids, hgroup, hids, h.acked g ids⟩

/-! ## XGROUP -/

/-- Nothing is said about pending entries and consumers. -/
theorem KeyInv.same
    {d d' : KeyData} {log : Bytes → List Ev} (h : KeyInv d log)
    (hgroups : d'.groups = d.groups) (hpels : d'.pels = d.pels) (hcons : d'.cons = d.cons) :
    KeyInv d' log := by
  intro g
  rw [hgroups, hpels, hcons]
  exact h g

theorem KeyInv.create
    {d d' : KeyData} {log : Bytes → List Ev} (h : KeyInv d log) {g id_arg : Bytes}
    {opts : List Bytes} {res : Result} (hexec : xgroupCreate g id_arg opts d = .ok (res, d')) :
    KeyInv d' fun g' => log g' ++ only g [.placed] g' := by
  unfold xgroupCreate at hexec
  split at hexec
  · cases hexec
  · split at hexec
    · cases hexec
    · split at hexec
      · cases hexec
      · split at hexec
        · cases hexec
        · split at hexec
          · cases hexec
          · cases hexec
            exact h.update ((SameElse.refl.save_group _).save _) (h g).placed

theorem KeyInv.setId
    {d d' : KeyData} {log : Bytes → List Ev} (h : KeyInv d log) {key g id_arg : Bytes}
    {opts : List Bytes} {res : Result} (hexec : xgroupSetId key g id_arg opts d = .ok (res, d')) :
    KeyInv d' fun g' => log g' ++ only g [.placed] g' := by
  unfold xgroupSetId at hexec
  split at hexec
  · cases hexec
  · split at hexec
    · cases hexec
    · split at hexec
      · cases hexec
      · cases hexec
      · split at hexec
        · cases hexec
        · cases hexec
          exact h.update (SameElse.refl.save_group _) (h g).placed

theorem ownerOf_deletePels (d : KeyData) (g : Bytes) {id : Id} (hin : inPrefixRange id) :
    ownerOf ((deletePels d g).pels g) id = none := by
  have hpels : (deletePels d g).pels g =
      eraseAll (d.pels g) ((d.pels g).keys.filter inPrefixRange) := Function.update_self ..
  rw [hpels, ownerOf_eraseAll]
  split
  · rfl
  · next hnot =>
      rw [List.mem_filter, not_and] at hnot
      have habsent : id ∉ d.pels g := by
        intro hmem
        exact hnot (Std.ExtTreeMap.mem_keys.mpr hmem) hin
      rw [ownerOf, Std.ExtTreeMap.getElem?_eq_none habsent]
      rfl

theorem KeyInv.destroy
    {d d' : KeyData} {log : Bytes → List Ev} (h : KeyInv d log) {g : Bytes} {res : Result}
    (hexec : xgroupDestroy g d = .ok (res, d')) :
    (d.groups[g]? = none ∧ d' = d) ∨
      (d.groups[g]?.isSome ∧ KeyInv d' fun g' => log g' ++ only g [.destroyed] g') := by
  unfold xgroupDestroy at hexec
  split at hexec
  · cases hexec
  · cases hexec
  · split at hexec
    · next hnone =>
        cases hexec
        exact Or.inl ⟨Option.isNone_iff_eq_none.mp hnone, rfl⟩
    · next hsome =>
        cases hexec
        refine Or.inr ⟨by simpa using hsome, h.update ?_ ?_⟩
        · constructor
          · intro g' hne
            exact (Std.ExtTreeMap.getElem?_erase ..).trans
              (if_neg fun heq => hne (Std.LawfulEqCmp.eq_of_compare heq).symm)
          · intro g' hne
            exact Function.update_of_ne hne _ _
          · intro g' hne
            exact Function.update_of_ne hne _ _
        · have hgone : (deleteCons (deletePels { d with groups := d.groups.erase g } g) g).groups[g]?
              = none := Std.ExtTreeMap.getElem?_erase_self
          rw [hgone]
          exact (h g).destroyed fun id hin => ownerOf_deletePels _ g hin

theorem mem_ownPels {d : KeyData} {g c : Bytes} {id : Id} :
    id ∈ ownPels d g c ↔ ownerOf (d.pels g) id = some c := by
  simp only [ownPels, KeyData.pel_range, List.mem_map, List.mem_filter, mem_range, ownerOf]
  constructor
  · rintro ⟨⟨id', p⟩, ⟨⟨hp, _, _⟩, howner⟩, rfl⟩
    rw [hp]
    simpa using howner
  · intro howner
    rw [Option.map_eq_some_iff] at howner
    obtain ⟨p, hp, howner⟩ := howner
    exact ⟨(id, p), ⟨⟨hp, ID_MIN_le id, le_ID_MAX id⟩, by simpa using howner⟩, rfl⟩

theorem KeyInv.consumer
    {d d' : KeyData} {log : Bytes → List Ev} (h : KeyInv d log) {now : UInt64} {create : Bool}
    {key g c : Bytes} {res : Result}
    (hexec : xgroupConsumer now create key g c d = .ok (res, d')) :
    KeyInv d' fun g' => log g' ++ only g (if create then [] else [.left c]) g' := by
  unfold xgroupConsumer at hexec
  split at hexec
  · cases hexec
  · cases hexec
  · split at hexec
    · cases hexec
    · split at hexec
      · next hcreate =>
          simp only [hcreate, if_true]
          split at hexec
          · cases hexec
            refine h.update SameElse.refl ?_
            rw [List.append_nil]
            exact h g
          · cases hexec
            refine h.update (SameElse.refl.save_con _ _) ?_
            rw [List.append_nil]
            refine (h g).more ?_
            intro c' hc'
            simp [KeyData.save_con, hc']
      · next hcreate =>
          simp only [hcreate, if_false, Bool.false_eq_true]
          split at hexec
          · next hnone =>
              cases hexec
              -- A consumer that is not known owes nothing.
              have hnot : c ∉ d.cons g := by
                intro hmem
                rw [Std.ExtTreeMap.mem_iff_isSome_getElem?, ← Option.not_isNone,
                  hnone] at hmem
                cases hmem
              refine h.update SameElse.refl ((h g).quiet (by simp [Ev.quiet]) last_le_refl ?_ ?_)
              · intro id hsound
                rw [owner_concat, (h g).owned id (sound_of_append hsound), ownerStep, if_neg]
                intro howner
                exact hnot ((h g).consumer id c (sound_of_append hsound) howner)
              · intro id c' hsound howner
                rw [owner_concat, ownerStep] at howner
                split at howner
                · cases howner
                · exact (h g).consumer id c' (sound_of_append hsound) howner
          · cases hexec
            rw [delPel_foldl]
            refine h.update ?_ ((h g).left ?_ ?_)
            · constructor
              · exact fun _ _ => rfl
              · intro g' hne
                exact Function.update_of_ne hne _ _
              · intro g' hne
                exact Function.update_of_ne hne _ _
            · intro id
              have hpels : (d.setPels g (eraseAll (d.pels g) (ownPels d g c))).pels g =
                  eraseAll (d.pels g) (ownPels d g c) := KeyData.setPels_pels _ _ _
              change ownerOf ((d.setPels g (eraseAll (d.pels g) (ownPels d g c))).pels g) id = _
              rw [hpels, ownerOf_eraseAll]
              simp only [mem_ownPels]
            · intro c' hc' hne
              have hcons : ((d.setPels g (eraseAll (d.pels g) (ownPels d g c))).delCon g c).cons g =
                  (d.cons g).erase c := Function.update_self ..
              rw [hcons, Std.ExtTreeMap.mem_erase]
              refine ⟨?_, hc'⟩
              intro heq
              exact hne (Std.LawfulEqCmp.eq_of_compare heq).symm

end Stream
end StrikeDB
