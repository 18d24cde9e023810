import StrikeDB.StreamSteps

/-!
# StrikeDB: reading a stream for a consumer

`Read` is what a read of a stream does to a group.  Reads of the same stream one
after the other are again a read, and a command reads every stream it names.

* `readNew_read`, `readHistory_read`: the two kinds of reads.
* `readStreams_read`: all streams of a command.
-/

namespace StrikeDB
namespace Stream

open OrderedMap

/-- Consumer `c` reads the IDs `ids`, which takes the group from `gr` to `gr'`. -/
structure Read (g c : Bytes) (noack : Bool) (ids : List Id) (gr gr' : Group) (d d' : KeyData) :
    Prop where
  before : d.groups[g]? = some gr
  after : d'.groups[g]? = some gr'
  same : SameElse g d d'
  entries : d'.entries = d.entries
  up : gr.last ≤ gr'.last
  increasing : ids.Pairwise (· < ·)
  above : ∀ id ∈ ids, gr.last < id ∧ id ≤ gr'.last ∧ id ∈ d.entries
  between : ∀ id ∈ d.entries, gr.last < id → id ≤ gr'.last → id ∈ ids
  owners : ∀ id, ownerOf (d'.pels g) id =
    if id ∈ ids ∧ noack = false then some c else ownerOf (d.pels g) id
  known : c ∈ d'.cons g
  cons : ∀ c' ∈ d.cons g, c' ∈ d'.cons g

namespace Read

variable {g c : Bytes} {noack : Bool} {ids ids' : List Id} {gr gr' gr'' : Group}
variable {d d' d'' : KeyData}

theorem trans
    (h : Read g c noack ids gr gr' d d') (h' : Read g c noack ids' gr' gr'' d' d'') :
    Read g c noack (ids ++ ids') gr gr'' d d'' where
  before := h.before
  after := h'.after
  same := by
    constructor
    · intro g' hne
      exact (h'.same.groups g' hne).trans (h.same.groups g' hne)
    · intro g' hne
      exact (h'.same.pels g' hne).trans (h.same.pels g' hne)
    · intro g' hne
      exact (h'.same.cons g' hne).trans (h.same.cons g' hne)
  entries := h'.entries.trans h.entries
  up := h.up.trans h'.up
  increasing := by
    rw [List.pairwise_append]
    refine ⟨h.increasing, h'.increasing, ?_⟩
    intro a ha b hb
    exact (h.above a ha).2.1.trans_lt (h'.above b hb).1
  above := by
    intro id hid
    rw [List.mem_append] at hid
    rcases hid with hid | hid
    · obtain ⟨hlt, hle, hmem⟩ := h.above id hid
      exact ⟨hlt, hle.trans h'.up, hmem⟩
    · obtain ⟨hlt, hle, hmem⟩ := h'.above id hid
      rw [h.entries] at hmem
      exact ⟨h.up.trans_lt hlt, hle, hmem⟩
  between := by
    intro id hmem hlt hle
    rw [List.mem_append]
    rcases le_or_gt id gr'.last with hfirst | hsecond
    · exact Or.inl (h.between id hmem hlt hfirst)
    · refine Or.inr (h'.between id ?_ hsecond hle)
      rw [h.entries]
      exact hmem
  owners := by
    intro id
    rw [h'.owners, h.owners]
    simp only [List.mem_append]
    by_cases hnoack : noack = false
    · by_cases hid' : id ∈ ids'
      · simp [hid', hnoack]
      · simp [hid', hnoack]
    · simp [hnoack]
  known := h'.known
  cons := fun c' hc' => h'.cons c' (h.cons c' hc')

/-- What is stored of the groups still agrees with their histories. -/
theorem keyInv
    {log : Bytes → List Ev} (h : Read g c noack ids gr gr' d d') (hinv : KeyInv d log) :
    KeyInv d' fun g' => log g' ++ only g (ids.map (.delivered c · noack)) g' := by
  refine hinv.update h.same ?_
  have hg := hinv g
  rw [h.before] at hg
  rw [h.after]
  refine (hg.more h.cons).delivered h.increasing ?_ ?_ h.up h.owners h.known
  · exact fun id hid => (h.above id hid).1
  · exact fun id hid => (h.above id hid).2.1

end Read

/-! ## New entries -/

/-- The group ends at the last of the entries delivered. -/
theorem deliver_foldl
    (s : Header) (entries : Entries) {es : List (Id × Fields)} (hes : Increasing es)
    {gr : Group} (hgr : ∀ e ∈ es, gr.last < e.1) :
    let gr' := es.foldl (fun gr e => deliver s entries gr e.1) gr
    gr.last ≤ gr'.last ∧ (∀ e ∈ es, e.1 ≤ gr'.last) ∧
      ∀ id, gr.last < id → (∀ e ∈ es, e.1 < id) → gr'.last < id := by
  induction es generalizing gr with
  | nil => exact ⟨le_refl _, by simp, fun id hid _ => hid⟩
  | cons e es ih =>
      rw [Increasing, List.pairwise_cons] at hes
      obtain ⟨hfirst, hes⟩ := hes
      obtain ⟨hup, hle, hbehind⟩ := @ih hes (deliver s entries gr e.1) hfirst
      have he : gr.last < e.1 := hgr e List.mem_cons_self
      refine ⟨he.le.trans hup, ?_, ?_⟩
      · rw [List.forall_mem_cons]
        exact ⟨hup, hle⟩
      · intro id _ hid
        rw [List.forall_mem_cons] at hid
        exact hbehind id hid.1 hid.2

theorem newEntries_increasing (d : KeyData) (gr : Group) (count : Nat) :
    Increasing (newEntries d gr count) := by
  unfold newEntries
  split
  · exact (range_increasing _ _ _).first _
  · exact List.Pairwise.nil

theorem mem_newEntries
    {d : KeyData} {gr : Group} {count : Nat} {e : Id × Fields} (h : e ∈ newEntries d gr count) :
    gr.last < e.1 ∧ e.1 ∈ d.entries := by
  unfold newEntries at h
  split at h
  · next lo hlo =>
      have hrange := mem_range.mp ((first_sublist _ _).subset h)
      refine ⟨(next_id_le_iff hlo e.1).mp hrange.2.1, ?_⟩
      rw [← isSome_iff_mem, hrange.1]
      rfl
  · cases h

/-- What is not read is behind everything that is, and the count is used up. -/
theorem newEntries_rest
    {d : KeyData} {gr : Group} {count : Nat} {id : Id} (hmem : id ∈ d.entries)
    (hlast : gr.last < id) (hout : id ∉ (newEntries d gr count).map Prod.fst) :
    (∀ e ∈ newEntries d gr count, e.1 < id) ∧ count ≠ 0 ∧
      (newEntries d gr count).length = count := by
  rw [← isSome_iff_mem, Option.isSome_iff_exists] at hmem
  obtain ⟨fields, hfields⟩ := hmem
  unfold newEntries at hout ⊢
  cases hlo : next_id gr.last with
  | none =>
      rw [eq_max_of_next_id hlo] at hlast
      exact absurd (le_ID_MAX id) (not_le_of_gt hlast)
  | some lo =>
      rw [hlo] at hout
      have hin : (id, fields) ∈ range d.entries lo ID_MAX := by
        refine mem_range.mpr ⟨hfields, ?_, le_ID_MAX id⟩
        exact (next_id_le_iff hlo id).mpr hlast
      have hnot : (id, fields) ∉ first count (range d.entries lo ID_MAX) := by
        intro hmem
        exact hout (List.mem_map.mpr ⟨_, hmem, rfl⟩)
      refine ⟨?_, ?_, length_first_of_not_mem hin hnot⟩
      · intro e he
        exact first_lt (range_increasing _ _ _) hin hnot he
      · rintro rfl
        exact hnot hin

theorem touch_con_read
    {d : KeyData} {g : Bytes} {gr : Group} (hgr : d.groups[g]? = some gr) (now : UInt64)
    (c : Bytes) (noack active : Bool) :
    Read g c noack [] gr gr d (d.touch_con now g c active) where
  before := hgr
  after := hgr
  same := SameElse.refl.save_con _ _
  entries := rfl
  up := le_refl _
  increasing := List.Pairwise.nil
  above := by simp
  between := fun id _ hlt hle => absurd hle (not_le_of_gt hlt)
  owners := by
    intro id
    simp [KeyData.touch_con, KeyData.save_con]
  known := mem_touch_con _ _ _ _ _
  cons := fun c' hc' => mem_touch_con_of_mem _ _ _ _ _ hc'

theorem readNew_read
    {d : KeyData} {g : Bytes} {gr : Group} (hgr : d.groups[g]? = some gr) (now : UInt64)
    (c : Bytes) (o : ReadOpts) (s : Header) :
    ∃ gr', Read g c o.noack ((readNew now g c o s gr d).1.map Prod.fst) gr gr' d
        (readNew now g c o s gr d).2 ∧
      ∀ id ∈ d.entries, gr'.last < id →
        o.count ≠ 0 ∧ o.count ≤ ((readNew now g c o s gr d).1.map Prod.fst).length := by
  have hrest := fun id => @newEntries_rest d gr o.count id
  have habove := fun e => @mem_newEntries d gr o.count e
  have hinc := newEntries_increasing d gr o.count
  unfold readNew
  generalize newEntries d gr o.count = es at hrest habove hinc ⊢
  obtain ⟨hup, hle, hbehind⟩ := deliver_foldl s d.entries hinc fun e he => (habove e he).1
  by_cases hempty : es = []
  · subst hempty
    refine ⟨gr, touch_con_read hgr now c o.noack _, ?_⟩
    intro id hmem hlt
    obtain ⟨_, hcount, hlen⟩ := hrest id hmem hlt (by simp)
    exact ⟨hcount, by simpa using hlen.ge⟩
  · have hisEmpty : es.isEmpty = false := by simpa using hempty
    simp only [hisEmpty, Bool.false_eq_true, if_false, Bool.not_false]
    have htouch := touch_con_read hgr now c o.noack true
    obtain ⟨m, hm, howners⟩ :=
      putPel_foldl g c Prod.fst
        (fun _ : Id × Fields => { time := now.toNat, count := 1, owner := c }) es (fun _ _ => rfl)
        (d.touch_con now g c true)
    refine ⟨es.foldl (fun gr e => deliver s d.entries gr e.1) gr, ?_, ?_⟩
    · rw [hm]
      constructor
      · exact hgr
      · cases o.noack <;> exact getElem?_save_group _ _ _
      · cases o.noack
        · exact (((htouch.same.setPels m).save_group _).save s)
        · exact ((htouch.same.save_group _).save s)
      · cases o.noack <;> rfl
      · exact hup
      · rw [List.pairwise_map]
        exact hinc
      · intro id hid
        rw [List.mem_map] at hid
        obtain ⟨e, he, rfl⟩ := hid
        exact ⟨(habove e he).1, hle e he, (habove e he).2⟩
      · intro id hmem hlt hbound
        by_contra hout
        obtain ⟨hlts, _, _⟩ := hrest id hmem hlt hout
        exact absurd hbound (not_le_of_gt (hbehind id hlt hlts))
      · intro id
        cases o.noack with
        | true => simpa [save, KeyData.save_group] using htouch.owners id
        | false =>
            have hpels : (save (((d.touch_con now g c true).setPels g m).save_group g
                (es.foldl (fun gr e => deliver s d.entries gr e.1) gr)) s).pels g = m :=
              KeyData.setPels_pels _ _ _
            simp only [Bool.false_eq_true, if_false]
            rw [hpels, howners]
            simp only [and_true]
            rfl
      · cases o.noack <;> exact htouch.known
      · cases o.noack <;> exact htouch.cons
    · intro id hmem hlt
      have hout : id ∉ es.map Prod.fst := by
        intro hid
        rw [List.mem_map] at hid
        obtain ⟨e, he, rfl⟩ := hid
        exact absurd (hle e he) (not_le_of_gt hlt)
      obtain ⟨_, hcount, hlen⟩ := hrest id hmem (hup.trans_lt hlt) hout
      refine ⟨hcount, ?_⟩
      rw [List.length_map]
      exact hlen.ge

/-! ## Pending entries -/

theorem readHistory_read
    {d : KeyData} {g : Bytes} {gr : Group} (hgr : d.groups[g]? = some gr) (now : UInt64)
    (c : Bytes) (noack : Bool) (count : Nat) (after : Id) :
    Read g c noack [] gr gr d (readHistory now g c count after d).2 := by
  have htouch := touch_con_read hgr now c noack false
  unfold readHistory
  split
  · exact htouch
  · next lo hlo =>
      -- The entries read are pending for the consumer already.
      have howner : ∀ e ∈ first count
          (((d.touch_con now g c false).pel_range g lo ID_MAX).filter fun e => e.2.owner == c),
          ownerOf (d.pels g) e.1 = some c ∧ e.2.owner = c := by
        intro e he
        have hmem := (first_sublist _ _).subset he
        rw [List.mem_filter, beq_iff_eq] at hmem
        have hp := (mem_range.mp hmem.1).1
        have hp' : (d.pels g)[e.1]? = some e.2 := hp
        rw [ownerOf, hp', Option.map_some, hmem.2]
        exact ⟨rfl, rfl⟩
      simp only
      generalize first count
        (((d.touch_con now g c false).pel_range g lo ID_MAX).filter fun e => e.2.owner == c) = pend
        at howner ⊢
      obtain ⟨m, hm, hmap⟩ :=
        putPel_foldl g c Prod.fst
          (fun e : Id × Pel =>
            { time := now.toNat, count := e.2.count + 1, owner := e.2.owner }) pend
          (fun e he => (howner e he).2) (d.touch_con now g c false)
      rw [hm]
      constructor
      · exact hgr
      · exact hgr
      · exact htouch.same.setPels m
      · rfl
      · exact le_refl _
      · exact List.Pairwise.nil
      · exact htouch.above
      · exact htouch.between
      · intro id
        rw [KeyData.setPels_pels, hmap]
        split
        · next hid =>
            rw [List.mem_map] at hid
            obtain ⟨e, he, rfl⟩ := hid
            simp [(howner e he).1]
        · exact htouch.owners id
      · exact htouch.known
      · exact htouch.cons

/-! ## All streams of a command -/

/-- The new entries of a key that a read gave. -/
def ReadOut.newIds (k : Bytes) : ReadOut → List Id
  | .new k' es => if k' = k then es.map Prod.fst else []
  | .history .. => []

def newIds (k : Bytes) (out : List ReadOut) : List Id := out.flatMap (ReadOut.newIds k)

theorem newIds_append (k : Bytes) (out out' : List ReadOut) :
    newIds k (out ++ out') = newIds k out ++ newIds k out' := List.flatMap_append

/-- What reading streams does to one key: nothing, or it is a read of it. -/
def ReadOf (g c : Bytes) (noack : Bool) (ids : List Id) (d d' : KeyData) : Prop :=
  (ids = [] ∧ d' = d) ∨ ∃ gr gr', Read g c noack ids gr gr' d d'

theorem ReadOf.trans
    {g c : Bytes} {noack : Bool} {ids ids' : List Id} {d d' d'' : KeyData}
    (h : ReadOf g c noack ids d d') (h' : ReadOf g c noack ids' d' d'') :
    ReadOf g c noack (ids ++ ids') d d'' := by
  rcases h' with ⟨rfl, rfl⟩ | ⟨gr₁, gr'', h'⟩
  · rw [List.append_nil]
    exact h
  · rcases h with ⟨rfl, rfl⟩ | ⟨gr, gr', h⟩
    · exact Or.inr ⟨gr₁, gr'', h'⟩
    · have heq : gr₁ = gr' := Option.some.inj (h'.before.symm.trans h.after)
      subst heq
      exact Or.inr ⟨gr, gr'', h.trans h'⟩

/-- Of the entries behind the group's last delivered ID none is left, or as many
were read as asked for. -/
def UsedUp (g : Bytes) (o : ReadOpts) (ids : List Id) (d : KeyData) : Prop :=
  ∀ gr, d.groups[g]? = some gr → ∀ id ∈ d.entries, gr.last < id →
    o.count ≠ 0 ∧ o.count ≤ ids.length

theorem UsedUp.later
    {g c : Bytes} {o : ReadOpts} {ids ids' : List Id} {d d' : KeyData}
    (h : UsedUp g o ids d) (hread : ReadOf g c o.noack ids' d d') :
    UsedUp g o (ids ++ ids') d' := by
  intro gr hgr id hmem hlt
  rw [List.length_append]
  rcases hread with ⟨rfl, rfl⟩ | ⟨gr₁, gr₂, hread⟩
  · obtain ⟨hcount, hlen⟩ := h gr hgr id hmem hlt
    exact ⟨hcount, hlen.trans (Nat.le_add_right _ _)⟩
  · rw [hread.entries] at hmem
    cases Option.some.inj (hgr.symm.trans hread.after)
    obtain ⟨hcount, hlen⟩ := h gr₁ hread.before id hmem (hread.up.trans_lt hlt)
    exact ⟨hcount, hlen.trans (Nat.le_add_right _ _)⟩

theorem foldl_kind {α : Type} (f : KeyData → α → KeyData) (hf : ∀ d a, (f d a).kind = d.kind)
    (l : List α) (d : KeyData) : (l.foldl f d).kind = d.kind := by
  induction l generalizing d with
  | nil => rfl
  | cons a l ih => rw [List.foldl_cons, ih, hf]

theorem readNew_kind
    (now : UInt64) (g c : Bytes) (o : ReadOpts) {s : Header} (gr : Group) {d : KeyData}
    (hkind : d.kind = .stream s) : (readNew now g c o s gr d).2.kind = .stream s := by
  simp only [readNew]
  split
  · exact hkind
  · rfl

theorem readHistory_kind
    (now : UInt64) (g c : Bytes) (count : Nat) (after : Id) (d : KeyData) :
    (readHistory now g c count after d).2.kind = d.kind := by
  unfold readHistory
  split
  · rfl
  · exact foldl_kind (fun d (e : Id × Pel) => d.putPel g e.1 _) (fun _ _ => rfl) _ _

/-- One stream of a command is read. -/
theorem readStreams_step
    (now : UInt64) (g c : Bytes) (o : ReadOpts) (k : Bytes) (st : Start)
    (rest : List (Bytes × Start)) (out : List ReadOut) (db : Db)
    (hgroup : (db k).groups[g]?.isSome) :
    ∃ new d, readStreams now g c o ((k, st) :: rest) out db =
        readStreams now g c o rest (out ++ new) (Function.update db k d) ∧
      ReadOf g c o.noack (newIds k new) (db k) d ∧
      d.kind = (db k).kind ∧
      (∀ k', k' ≠ k → newIds k' new = []) ∧
      (st = .new → (∃ s, (db k).kind = .stream s) → UsedUp g o (newIds k new) d) := by
  rw [Option.isSome_iff_exists] at hgroup
  obtain ⟨gr, hgr⟩ := hgroup
  cases hkind : (db k).kind with
  | absent =>
      refine ⟨[], db k, ?_, Or.inl ⟨rfl, rfl⟩, hkind, fun _ _ => rfl, ?_⟩
      · simp [readStreams, hkind]
      · rintro _ ⟨s, hs⟩
        cases hs
  | foreign =>
      refine ⟨[], db k, ?_, Or.inl ⟨rfl, rfl⟩, hkind, fun _ _ => rfl, ?_⟩
      · simp [readStreams, hkind]
      · rintro _ ⟨s, hs⟩
        cases hs
  | stream s =>
      cases st with
      | after id =>
          refine ⟨[.history k (readHistory now g c o.count id (db k)).1],
            (readHistory now g c o.count id (db k)).2, ?_, Or.inr ⟨gr, gr, ?_⟩, ?_, ?_, ?_⟩
          · simp only [readStreams, hkind]
          · exact readHistory_read hgr now c o.noack o.count id
          · rw [readHistory_kind, hkind]
          · exact fun _ _ => rfl
          · intro hst
            cases hst
      | new =>
          obtain ⟨gr', hread, hused⟩ := readNew_read hgr now c o s
          have hids : newIds k (if (readNew now g c o s gr (db k)).1.isEmpty then []
              else [.new k (readNew now g c o s gr (db k)).1]) =
              (readNew now g c o s gr (db k)).1.map Prod.fst := by
            split
            · next hempty =>
                rw [List.isEmpty_iff] at hempty
                rw [hempty]
                rfl
            · simp [newIds, ReadOut.newIds]
          refine ⟨if (readNew now g c o s gr (db k)).1.isEmpty then []
              else [.new k (readNew now g c o s gr (db k)).1],
            (readNew now g c o s gr (db k)).2, ?_, ?_, ?_, ?_, ?_⟩
          · simp only [readStreams, hkind, hgr]
            split
            · rw [List.append_nil]
            · rfl
          · rw [hids]
            exact Or.inr ⟨gr, gr', hread⟩
          · exact readNew_kind now g c o gr hkind
          · intro k' hne
            split
            · rfl
            · simp [newIds, ReadOut.newIds, hne.symm]
          · intro _ _ gr'' hgr'' id hmem hlt
            rw [hids]
            cases Option.some.inj (hgr''.symm.trans hread.after)
            rw [hread.entries] at hmem
            exact hused id hmem hlt

/-- What reading all streams of a command does to every key. -/
theorem readStreams_read
    (now : UInt64) (g c : Bytes) (o : ReadOpts) (starts : List (Bytes × Start))
    (out : List ReadOut) (db : Db)
    (hgroups : ∀ e ∈ starts, (db e.1).groups[g]?.isSome) :
    ∃ new, (readStreams now g c o starts out db).1 = out ++ new ∧
      ∀ k, ReadOf g c o.noack (newIds k new) (db k) ((readStreams now g c o starts out db).2 k) ∧
        ((k, .new) ∈ starts → (∃ s, (db k).kind = .stream s) →
          UsedUp g o (newIds k new) ((readStreams now g c o starts out db).2 k)) := by
  induction starts generalizing out db with
  | nil =>
      refine ⟨[], by simp [readStreams], ?_⟩
      intro k
      exact ⟨Or.inl ⟨rfl, rfl⟩, by simp⟩
  | cons e starts ih =>
      obtain ⟨k₀, st⟩ := e
      rw [List.forall_mem_cons] at hgroups
      obtain ⟨hgroup, hgroups⟩ := hgroups
      obtain ⟨new₁, d, hstep, hread, hkind, hother, hused⟩ :=
        readStreams_step now g c o k₀ st starts out db hgroup
      have hstays : d.groups[g]?.isSome := by
        rcases hread with ⟨_, rfl⟩ | ⟨gr, gr', hread⟩
        · exact hgroup
        · rw [hread.after]
          rfl
      have hgroups' : ∀ e ∈ starts, ((Function.update db k₀ d) e.1).groups[g]?.isSome := by
        intro e he
        by_cases hk : e.1 = k₀
        · rw [hk, Function.update_self]
          exact hstays
        · rw [Function.update_of_ne hk]
          exact hgroups e he
      obtain ⟨new₂, hout, hkeys⟩ := ih (out ++ new₁) (Function.update db k₀ d) hgroups'
      rw [hstep]
      refine ⟨new₁ ++ new₂, by rw [hout, List.append_assoc], ?_⟩
      intro k
      obtain ⟨hread₂, hused₂⟩ := hkeys k
      rw [newIds_append]
      by_cases hk : k = k₀
      · subst hk
        rw [Function.update_self] at hread₂ hused₂
        refine ⟨hread.trans hread₂, ?_⟩
        intro hmem hstream
        rw [List.mem_cons] at hmem
        rcases hmem with heq | hmem
        · cases heq
          exact (hused rfl hstream).later hread₂
        · rw [← hkind] at hstream
          intro gr hgr id hid hlt
          obtain ⟨hcount, hlen⟩ := hused₂ hmem hstream gr hgr id hid hlt
          rw [List.length_append]
          exact ⟨hcount, hlen.trans (Nat.le_add_left _ _)⟩
      · rw [Function.update_of_ne hk] at hread₂ hused₂
        rw [hother k hk, List.nil_append]
        refine ⟨hread₂, ?_⟩
        intro hmem hstream
        rw [List.mem_cons] at hmem
        rcases hmem with heq | hmem
        · cases heq
          exact absurd rfl hk
        · exact hused₂ hmem hstream

end Stream
end StrikeDB
