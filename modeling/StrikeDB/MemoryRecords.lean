import StrikeDB.MemoryTables

/-!
# StrikeDB: the long-term memory and the records it stores

`Represents` connects the structures of the long-term memory to the list of the stored
records: every record has its text, its meta data, one posting for every token, its entry
in the index and its vector in the arena of its owner, and nothing else is there.

**Results.**
* `kwPrefix_kw_key`: a scan for a token finds the postings of this token.
* `Represents.get`: what is read of a record.
* `Represents.apply`, `represents_run`: every operation keeps the connection.
-/

namespace StrikeDB
namespace Recall

/-! ## Postings -/

theorem bytesOf_inj {s t : List Char} (h : bytesOf s = bytesOf t) : s = t := by
  have hfrom := congrArg Value.fromUtf8 h
  rw [bytesOf, bytesOf, Value.fromUtf8_strBytes, Value.fromUtf8_strBytes,
    Option.some.injEq] at hfrom
  exact String.ofList_injective hfrom

theorem bytesOf_eq (s : List Char) : bytesOf s = s.flatMap String.utf8EncodeChar := by
  rw [bytesOf, Value.strBytes, String.toByteArray_ofList, List.utf8Encode]
  simp

/-- The byte of a colon encodes nothing else. -/
theorem colon_of_mem {c : Char} (h : COLON ∈ String.utf8EncodeChar c) : c = ':' := by
  have hne : ∀ n : Nat, 0x80 ≤ n % 256 → COLON ≠ UInt8.ofNat n := by
    intro n hn heq
    have hnat := congrArg UInt8.toNat heq
    rw [UInt8.toNat_ofNat'] at hnat
    have : COLON.toNat = 58 := rfl
    omega
  unfold String.utf8EncodeChar at h
  dsimp only at h
  split at h
  · next hle =>
      rw [List.mem_singleton] at h
      have hnat := congrArg UInt8.toNat h
      rw [UInt8.toNat_ofNat'] at hnat
      have hval : c.val.toNat = 58 := by
        have : COLON.toNat = 58 := rfl
        omega
      exact Char.ext (UInt32.toNat_inj.mp hval)
  · split at h
    · simp only [List.mem_cons, List.not_mem_nil, or_false] at h
      rcases h with h | h <;> exact absurd h (hne _ (by omega))
    · split at h
      · simp only [List.mem_cons, List.not_mem_nil, or_false] at h
        rcases h with h | h | h <;> exact absurd h (hne _ (by omega))
      · simp only [List.mem_cons, List.not_mem_nil, or_false] at h
        rcases h with h | h | h | h <;> exact absurd h (hne _ (by omega))

theorem not_mem_splitOnP {p : Char → Bool} {l s : List Char} (hs : s ∈ l.splitOnP p) :
    ∀ c ∈ s, p c = false := by
  induction l generalizing s with
  | nil =>
      rw [List.splitOnP_nil, List.mem_singleton] at hs
      simp [hs]
  | cons a l ih =>
      rw [List.splitOnP_cons_eq_if_modifyHead] at hs
      split at hs
      · rcases List.mem_cons.mp hs with rfl | hs
        · simp
        · exact ih hs
      · next hp =>
          cases hl : l.splitOnP p with
          | nil => simp [hl] at hs
          | cons t ts =>
              rw [hl, List.modifyHead_cons] at hs
              rw [hl] at ih
              rcases List.mem_cons.mp hs with rfl | hs
              · intro c hc
                rcases List.mem_cons.mp hc with rfl | hc
                · simpa using hp
                · exact ih List.mem_cons_self c hc
              · exact ih (List.mem_cons_of_mem _ hs)

/-- A token has no colon. -/
theorem colon_not_mem_token {u : Unicode} {text tok : List Char} (h : tok ∈ tokenize u text) :
    COLON ∉ bytesOf tok := by
  intro hmem
  rw [bytesOf_eq] at hmem
  obtain ⟨c, hc, hcolon⟩ := List.mem_flatMap.mp hmem
  have hp := not_mem_splitOnP (List.mem_of_mem_filter h) c hc
  rw [colon_of_mem hcolon, u.colon] at hp
  cases hp

/-- A scan for a token finds the postings of this token. -/
theorem kwPrefix_kw_key {tok tok' : List Char} (h : COLON ∉ bytesOf tok)
    (h' : COLON ∉ bytesOf tok') (id : Nat) :
    kwPrefix tok <+: kw_key tok' id ↔ tok = tok' := by
  constructor
  · intro hp
    rw [kw_key, kwPrefix, kwPrefix, List.append_assoc, List.prefix_append_right_inj] at hp
    have hself : bytesOf tok' ++ [COLON] <+: bytesOf tok' ++ [COLON] ++ beBytes 8 id :=
      List.prefix_append _ _
    by_contra hne
    have hbytes : bytesOf tok ≠ bytesOf tok' := fun heq => hne (bytesOf_inj heq)
    rcases prefix_of_append_sep hp hself hbytes with hpre | hpre
    · exact h' (hpre.subset (by simp))
    · exact h (hpre.subset (by simp))
  · rintro rfl
    exact List.prefix_append _ _

theorem kw_key_id {tok tok' : List Char} {id id' : Nat} (hid : id < 2 ^ 64)
    (hid' : id' < 2 ^ 64) (h : kw_key tok id = kw_key tok' id') :
    id = id' := by
  have hlen : (beBytes 8 id).length = (beBytes 8 id').length := by
    rw [beBytes_length, beBytes_length]
  have hbytes := (List.append_inj' h hlen).2
  have hnat := congrArg beNat hbytes
  rw [beNat_beBytes (by omega), beNat_beBytes (by omega)] at hnat
  exact hnat

/-- `for tok in tokenize(text) { put(kw_key(tok, id)) }`. -/
theorem mem_foldl_insert (toks : List (List Char)) (id : Nat) (kw : List Key) (key : Key) :
    key ∈ toks.foldl (fun kw tok => kw.insert (kw_key tok id)) kw ↔
      key ∈ kw ∨ ∃ tok ∈ toks, key = kw_key tok id := by
  induction toks generalizing kw with
  | nil => simp
  | cons tok toks ih =>
      rw [List.foldl_cons, ih, List.mem_insert_iff]
      simp only [List.mem_cons, exists_eq_or_imp]
      tauto

theorem nodup_foldl_insert (toks : List (List Char)) (id : Nat) {kw : List Key}
    (h : kw.Nodup) :
    (toks.foldl (fun kw tok => kw.insert (kw_key tok id)) kw).Nodup := by
  induction toks generalizing kw with
  | nil => exact h
  | cons tok toks ih => exact ih (h.insert)

theorem foldl_erase (toks : List (List Char)) (id : Nat) {kw : List Key} (h : kw.Nodup) :
    (toks.foldl (fun kw tok => kw.erase (kw_key tok id)) kw).Nodup ∧
      ∀ key, key ∈ toks.foldl (fun kw tok => kw.erase (kw_key tok id)) kw ↔
        key ∈ kw ∧ ∀ tok ∈ toks, key ≠ kw_key tok id := by
  induction toks generalizing kw with
  | nil => exact ⟨h, fun key => by simp⟩
  | cons tok toks ih =>
      obtain ⟨hnodup, hmem⟩ := ih (h.erase (kw_key tok id))
      refine ⟨hnodup, fun key => ?_⟩
      rw [List.foldl_cons, hmem, h.mem_erase_iff]
      simp only [List.mem_cons, forall_eq_or_imp]
      tauto

section Store

variable {F : Type} [Field F] [LinearOrder F] (u : Unicode) (sqrt : F → F)

/-! ## The whole memory -/

omit [Field F] [LinearOrder F] in
/-- The vector of an operation has this length. -/
def Op.HasDim (d : Nat) : Op F → Prop
  | .ltm_store_temporal _ vector .. => vector.length = d
  | _ => True

/-- The long-term memory keeps exactly the stored records. -/
structure Represents (d : Nat) (m : LongTerm F) (b : Book F) : Prop where
  next_id : m.next_id = b.next_id
  bound : b.next_id ≤ 2 ^ 64
  ids : ∀ x ∈ b.entries, x.id < b.next_id
  nodup : (b.entries.map Entry.id).Nodup
  dims : ∀ x ∈ b.entries, x.vec.length = d
  ltm : Lists m.ltm (fun x text => x.text = text) b.entries
  metas : Lists m.metas (fun x meta_ => x.meta_ = meta_) b.entries
  kw : ∀ key, key ∈ m.kw ↔ ∃ x ∈ b.entries, ∃ tok ∈ tokenize u x.text, key = kw_key tok x.id
  kw_nodup : m.kw.Nodup
  idx : IndexHolds sqrt d m.idx b.entries

variable {u} {sqrt} {d : Nat} {m : LongTerm F} {b : Book F}

theorem represents_empty :
    Represents u sqrt d (LongTerm.empty F) { next_id := 1, entries := [] } where
  next_id := rfl
  bound := by norm_num
  ids := by simp
  nodup := by simp
  dims := by simp
  ltm := by
    intro id b
    simp [LongTerm.empty]
  metas := by
    intro id b
    simp [LongTerm.empty]
  kw := by simp [LongTerm.empty]
  kw_nodup := by simp [LongTerm.empty]
  idx := indexHolds_empty

/-- What `ltm_get_light` finds. -/
theorem Represents.get (h : Represents u sqrt d m b) (id : Nat) (r : List Char × Meta F) :
    m.get id = some r ↔ ∃ x ∈ b.entries, x.id = id ∧ (x.text, x.meta_) = r := by
  rw [LongTerm.get]
  constructor
  · intro hget
    obtain ⟨text, htext, hmap⟩ := Option.bind_eq_some_iff.mp hget
    obtain ⟨meta_, hmeta, rfl⟩ := Option.map_eq_some_iff.mp hmap
    obtain ⟨x, hx, hxid, rfl⟩ := (h.ltm id text).mp htext
    obtain ⟨y, hy, hyid, rfl⟩ := (h.metas id meta_).mp hmeta
    have hxy := List.inj_on_of_nodup_map h.nodup hx hy (hxid.trans hyid.symm)
    exact ⟨x, hx, hxid, by rw [hxy]⟩
  · rintro ⟨x, hx, hxid, rfl⟩
    rw [(h.ltm id x.text).mpr ⟨x, hx, hxid, rfl⟩,
      (h.metas id x.meta_).mpr ⟨x, hx, hxid, rfl⟩]
    rfl

theorem Represents.absent (h : Represents u sqrt d m b) {id : Nat} (hid : m.get id = none)
    {x : Entry F} (hx : x ∈ b.entries) :
    x.id ≠ id := by
  intro heq
  rw [(h.get id (x.text, x.meta_)).mpr ⟨x, hx, heq, rfl⟩] at hid
  cases hid

theorem Represents.store (h : Represents u sqrt d m b) {x : Entry F} (hid : x.id = b.next_id)
    (hdim : x.vec.length = d) (hroom : b.next_id + 1 ≤ 2 ^ 64) :
    Represents u sqrt d
      { ltm := m.ltm.insert x.id x.text
        metas := m.metas.insert x.id x.meta_
        kw := (tokenize u x.text).foldl (fun kw tok => kw.insert (kw_key tok x.id)) m.kw
        next_id := b.next_id + 1
        ltm_count := m.ltm_count + 1
        idx := m.idx.insert sqrt x.id x.meta_ x.vec }
      { next_id := b.next_id + 1, entries := b.entries ++ [x] } := by
  have hnew : ∀ y ∈ b.entries, y.id ≠ x.id := by
    intro y hy
    have := h.ids y hy
    omega
  refine
    { next_id := rfl, bound := hroom, ids := ?_, nodup := ?_
      dims := ?_, ltm := ?_, metas := ?_, kw := ?_, kw_nodup := ?_, idx := ?_ }
  · intro y hy
    rcases List.mem_append.mp hy with hy | hy
    · exact (h.ids y hy).trans (Nat.lt_succ_self _)
    · rw [List.mem_singleton.mp hy, hid]
      exact Nat.lt_succ_self _
  · rw [List.map_append, List.map_singleton, List.nodup_append]
    refine ⟨h.nodup, List.nodup_singleton _, ?_⟩
    intro i hi j hj
    obtain ⟨y, hy, rfl⟩ := List.mem_map.mp hi
    rw [List.mem_singleton.mp hj]
    exact hnew y hy
  · intro y hy
    rcases List.mem_append.mp hy with hy | hy
    · exact h.dims y hy
    · rw [List.mem_singleton.mp hy, hdim]
  · exact h.ltm.insert hnew fun text => eq_comm
  · exact h.metas.insert hnew fun meta_ => eq_comm
  · intro key
    rw [mem_foldl_insert, h.kw]
    simp [or_and_right, exists_or]
  · exact nodup_foldl_insert _ _ h.kw_nodup
  · exact h.idx.insert hdim hnew

theorem Represents.forget (h : Represents u sqrt d m b) (id : Nat) :
    Represents u sqrt d (m.ltm_forget u id)
      { b with entries := b.entries.filter fun x => x.id ≠ id } := by
  have hids : ∀ x ∈ b.entries.filter (fun x => x.id ≠ id), x.id < b.next_id :=
    fun x hx => h.ids x (List.mem_of_mem_filter hx)
  have hnodup := h.nodup.sublist
    ((List.filter_sublist (p := fun x : Entry F => decide (x.id ≠ id))).map Entry.id)
  have hdims : ∀ x ∈ b.entries.filter (fun x => x.id ≠ id), x.vec.length = d :=
    fun x hx => h.dims x (List.mem_of_mem_filter hx)
  rw [LongTerm.ltm_forget]
  cases hget : m.get id with
  | none =>
      have hall : b.entries.filter (fun x => x.id ≠ id) = b.entries := by
        rw [List.filter_eq_self]
        intro x hx
        exact decide_eq_true (h.absent hget hx)
      refine
        { next_id := h.next_id, bound := h.bound, ids := hids, nodup := hnodup, dims := hdims
          ltm := h.ltm.erase id, metas := h.metas.erase id, kw := ?_, kw_nodup := h.kw_nodup
          idx := ?_ }
      · simp only [hall]
        exact h.kw
      · simp only [hall]
        exact h.idx
  | some r =>
      obtain ⟨x, hx, hxid, rfl⟩ := (h.get id r).mp hget
      obtain ⟨hkw_nodup, hkw⟩ := foldl_erase (tokenize u x.text) id h.kw_nodup
      refine
        { next_id := h.next_id, bound := h.bound, ids := hids, nodup := hnodup, dims := hdims
          ltm := h.ltm.erase id, metas := h.metas.erase id, kw := ?_, kw_nodup := hkw_nodup
          idx := h.idx.remove h.nodup id }
      intro key
      refine (hkw key).trans ?_
      rw [h.kw]
      constructor
      · rintro ⟨⟨y, hy, tok, htok, rfl⟩, hother⟩
        refine ⟨y, List.mem_filter.mpr ⟨hy, decide_eq_true fun hyid => ?_⟩, tok, htok, rfl⟩
        have hyx := List.inj_on_of_nodup_map h.nodup hy hx (hyid.trans hxid.symm)
        exact hother tok (hyx ▸ htok) (by rw [hyid])
      · rintro ⟨y, hy, tok, htok, rfl⟩
        obtain ⟨hy, hne⟩ := List.mem_filter.mp hy
        refine ⟨⟨y, hy, tok, htok, rfl⟩, fun tok' _ heq => ?_⟩
        have hylt := h.ids y hy
        have hxlt := h.ids x hx
        have hbound := h.bound
        exact of_decide_eq_true hne (kw_key_id (by omega) (by omega) heq)

theorem Represents.amend (h : Represents u sqrt d m b) (id : Nat) {f f' : Meta F → Meta F}
    {g : RecInfo F → RecInfo F} (hf : ∀ meta_, (f meta_).owner = meta_.owner)
    (hg : ∀ info, (g info).owner = info.owner)
    (hfg : ∀ meta_ info, Agrees meta_ info → Agrees (f meta_) (g info))
    (hff : ∀ r, m.get id = some r → f' r.2 = f r.2) :
    Represents u sqrt d (m.amend id f g) (b.amend id f') := by
  rw [LongTerm.amend, Book.amend]
  cases hget : m.get id with
  | none =>
      rw [map_amend_of_absent fun x hx => h.absent hget hx]
      exact h
  | some r =>
      obtain ⟨x, hx, rfl, rfl⟩ := (h.get id r).mp hget
      have hsame : b.entries.map (Entry.amend x.id f') = b.entries.map (Entry.amend x.id f) := by
        refine List.map_congr_left fun y hy => ?_
        by_cases hid : y.id = x.id
        · rw [List.inj_on_of_nodup_map h.nodup hy hx hid, Entry.amend_self rfl,
            Entry.amend_self rfl, hff _ hget]
        · rw [Entry.amend_of_ne hid, Entry.amend_of_ne hid]
      have hids : (b.entries.map (Entry.amend x.id f)).map Entry.id = b.entries.map Entry.id := by
        rw [List.map_map]
        exact List.map_congr_left fun y _ => Entry.amend_id ..
      rw [hsame]
      refine
        { next_id := h.next_id, bound := h.bound, ids := ?_, nodup := hids ▸ h.nodup
          dims := ?_, ltm := ?_, metas := ?_, kw := ?_, kw_nodup := h.kw_nodup
          idx := h.idx.update h.nodup x.id hf hg hfg }
      · intro y hy
        obtain ⟨z, hz, rfl⟩ := List.mem_map.mp hy
        rw [Entry.amend_id]
        exact h.ids z hz
      · intro y hy
        obtain ⟨z, hz, rfl⟩ := List.mem_map.mp hy
        rw [Entry.amend_vec]
        exact h.dims z hz
      · exact h.ltm.congr fun y text => by rw [Entry.amend_text]
      · refine h.metas.amend h.nodup hx fun meta_ => ?_
        rw [Entry.amend_self rfl]
        exact eq_comm
      · intro key
        refine (h.kw key).trans ?_
        simp

/-- Every operation keeps the connection. -/
theorem Represents.apply (h : Represents u sqrt d m b) (op : Op F) (hop : op.HasDim d) :
    Represents u sqrt d (m.apply sqrt u op) (b.apply op) := by
  cases op with
  | ltm_store_temporal text vector source salience lineage valid_from valid_to owner ts =>
      rw [LongTerm.apply, LongTerm.store, Book.apply, h.next_id]
      by_cases hfull : 2 ^ 64 ≤ b.next_id + 1
      · rw [if_pos hfull, if_pos hfull]
        exact h
      · rw [if_neg hfull, if_neg hfull]
        exact h.store (x := {
          id := b.next_id, text := text, vec := vector
          meta_ :=
            { source := source, created_ts := ts, salience := salience, lineage := lineage
              valid_from := if valid_from = 0 then ts else valid_from
              valid_to := valid_to, owner := owner } }) rfl hop (by omega)
  | ltm_forget id => exact h.forget id
  | ltm_invalidate id invalid_at =>
      refine h.amend id (fun _ => rfl) (fun _ => rfl) ?_ (fun _ _ => rfl)
      rintro meta_ info ⟨hsal, hfrom, _⟩
      exact ⟨hsal, hfrom, rfl⟩
  | touch_salience id delta =>
      rw [LongTerm.apply, Book.apply]
      cases hget : m.get id with
      | none =>
          rw [Book.amend, map_amend_of_absent fun x hx => h.absent hget hx]
          exact h
      | some r =>
          obtain ⟨text, meta_⟩ := r
          refine h.amend id (fun _ => rfl) (fun _ => rfl) ?_ ?_
          · rintro meta' info ⟨_, hfrom, hto⟩
            exact ⟨rfl, hfrom, hto⟩
          · intro r hr
            rw [hget, Option.some.injEq] at hr
            rw [← hr]

theorem Represents.foldl (ops : List (Op F)) (hops : ∀ op ∈ ops, op.HasDim d)
    (h : Represents u sqrt d m b) :
    Represents u sqrt d (ops.foldl (fun m op => m.apply sqrt u op) m)
      (ops.foldl Book.apply b) := by
  induction ops generalizing m b with
  | nil => exact h
  | cons op ops ih =>
      exact ih (fun op' hop' => hops op' (List.mem_cons_of_mem _ hop'))
        (h.apply op (hops op List.mem_cons_self))

/-- After any operations the memory keeps exactly the stored records. -/
theorem represents_run (ops : List (Op F)) (hops : ∀ op ∈ ops, op.HasDim d) :
    Represents u sqrt d (LongTerm.run sqrt u ops) (Book.run ops) :=
  represents_empty.foldl ops hops

end Store
end Recall
end StrikeDB
