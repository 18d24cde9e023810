import StrikeDB.StreamPending
import StrikeDB.StreamReads

/-!
# StrikeDB: consumer groups over whole runs

A run of commands with the histories of all groups.  What is stored agrees with
the histories in every state (`DbInv`), which gives the guarantees of a group.

* `groups_deliver`: reads of new entries return IDs in increasing order, each
  once, until the group is placed anew; they skip no entry; an ID is pending for
  the consumer that owes its acknowledgement; and the counts agree.
* `delconsumer_unacked`: an ID may stop to be pending without an XACK.
-/

namespace StrikeDB
namespace Stream

open OrderedMap

/-! ## Events of a command -/

def GroupCmd.events (x : GroupCmd) (d : KeyData) : List Ev :=
  match x.sub, x.rest with
  | .create, _ => [.placed]
  | .setId, _ => [.placed]
  | .destroy, _ => if d.groups[x.g]?.isSome then [.destroyed] else []
  | .createConsumer, _ => []
  | .delConsumer, [c] => [.left c]
  | .delConsumer, _ => []

/-- Events of the groups of one key. -/
def atKey (key : Bytes) (evs : Bytes → List Ev) (k g : Bytes) : List Ev :=
  if k = key then evs g else []

/-- What a command that was answered stands for. -/
def Cmd.events (db : Db) (res : Result) : Cmd → Bytes → Bytes → List Ev
  | .xreadgroup _ a, k, g =>
      match parseReadGroup a db, res with
      | .ok r, .reads out => only r.g ((newIds k out).map (.delivered r.c · r.opts.noack)) g
      | _, _ => []
  | .xack key g' a, k, g =>
      match groupOf (db key) g', parseIds a with
      | .ok (some _), .ok ids => atKey key (only g' (ids.map .acked)) k g
      | _, _ => []
  | .xclaim now key g' c a, k, g =>
      match parseClaim now a, res with
      | .ok x, .claimed _ es =>
          atKey key
            (only g' (claimEvents c (es.map Prod.fst) (goneIds (db key).entries x.ids))) k g
      | _, _ => []
  | .xautoclaim _ key g' c _, k, g =>
      match res with
      | .autoclaimed _ _ es deleted =>
          atKey key (only g' (claimEvents c (es.map Prod.fst) deleted)) k g
      | _ => []
  | .xgroup _ a, k, g =>
      match parseGroupCmd a with
      | .ok x => atKey x.key (only x.g (x.events (db x.key))) k g
      | .error _ => []
  | .xadd .., _, _ => []
  | .xdel .., _, _ => []
  | .xtrim .., _, _ => []

/-! ## The invariant of the database -/

/-- What is stored of all groups agrees with their histories. -/
def DbInv (db : Db) (log : Bytes → Bytes → List Ev) : Prop := ∀ k, KeyInv (db k) (log k)

theorem DbInv.update
    {db : Db} {log : Bytes → Bytes → List Ev} (h : DbInv db log) {key : Bytes} {d : KeyData}
    {evs : Bytes → List Ev} (hd : KeyInv d fun g => log key g ++ evs g) :
    DbInv (Function.update db key d) fun k g => log k g ++ atKey key evs k g := by
  intro k
  by_cases hk : k = key
  · subst hk
    rw [Function.update_self]
    simp only [atKey, if_pos]
    exact hd
  · rw [Function.update_of_ne hk]
    simp only [atKey, if_neg hk, List.append_nil]
    exact h k

/-- A command without events on one key. -/
theorem DbInv.quiet
    {db : Db} {log : Bytes → Bytes → List Ev} (h : DbInv db log) {key : Bytes} {d : KeyData}
    (hd : KeyInv d (log key)) : DbInv (Function.update db key d) log := by
  intro k
  by_cases hk : k = key
  · subst hk
    rw [Function.update_self]
    exact hd
  · rw [Function.update_of_ne hk]
    exact h k

theorem exists_of_onKey
    {db db' : Db} {key : Bytes} {f : KeyData → Outcome} {res : Result}
    (h : onKey db key f = .ok (res, db')) :
    ∃ d, f (db key) = .ok (res, d) ∧ db' = Function.update db key d := by
  unfold onKey at h
  split at h
  · cases h
  · next r d hf =>
      cases h
      exact ⟨d, hf, rfl⟩

theorem exists_of_plain
    {f : KeyData → Answer} {d d' : KeyData} {res : Result} (h : plain f d = .ok (res, d')) :
    ∃ r, f d = .ok (r, d') := by
  unfold plain at h
  split at h
  · cases h
  · next r d'' hf =>
      cases h
      exact ⟨r, hf⟩

/-- XADD, XDEL and XTRIM leave the groups alone. -/
structure SameGroups (d d' : KeyData) : Prop where
  groups : d'.groups = d.groups
  pels : d'.pels = d.pels
  cons : d'.cons = d.cons

theorem sameGroups_xadd
    {now : UInt64} {a : List Bytes} {d d' : KeyData} {r : Resp}
    (h : xadd now a d = .ok (r, d')) : SameGroups d d' := by
  unfold xadd at h
  split at h
  · cases h
  · next id d'' hentry =>
      cases h
      unfold xaddEntry at hentry
      split at hentry
      · cases hentry
      · split at hentry
        · cases hentry
        · split at hentry
          · cases hentry
          · split at hentry
            · cases hentry
              exact ⟨rfl, rfl, rfl⟩
            · simp only at hentry
              split at hentry
              · cases hentry
              · split at hentry
                · cases hentry
                · cases hentry
                  exact ⟨rfl, rfl, rfl⟩

theorem sameGroups_xdel
    {a : List Bytes} {d d' : KeyData} {r : Resp} (h : xdel a d = .ok (r, d')) :
    SameGroups d d' := by
  unfold xdel at h
  split at h
  · cases h
  · split at h
    · cases h
    · cases h
      exact ⟨rfl, rfl, rfl⟩
    · split at h
      · cases h
      · cases h
        exact ⟨rfl, rfl, rfl⟩

theorem sameGroups_xtrim
    {a : List Bytes} {d d' : KeyData} {r : Resp} (h : xtrim a d = .ok (r, d')) :
    SameGroups d d' := by
  unfold xtrim at h
  split at h
  · cases h
  · split at h
    · cases h
    · cases h
      exact ⟨rfl, rfl, rfl⟩
    · cases h
      exact ⟨rfl, rfl, rfl⟩

theorem KeyInv.sameGroups
    {d d' : KeyData} {log : Bytes → List Ev} (h : KeyInv d log) (hsame : SameGroups d d') :
    KeyInv d' log := h.same hsame.groups hsame.pels hsame.cons

theorem only_nil (g g' : Bytes) : only g [] g' = [] := by
  unfold only
  split <;> rfl

theorem KeyInv.xgroup
    {d d' : KeyData} {log : Bytes → List Ev} (h : KeyInv d log) {now : UInt64} {x : GroupCmd}
    {res : Result} (hexec : Stream.xgroup now x d = .ok (res, d')) :
    KeyInv d' fun g => log g ++ only x.g (x.events d) g := by
  unfold Stream.xgroup at hexec
  unfold GroupCmd.events
  split at hexec
  · next hsub hrest =>
      rw [hsub, hrest]
      exact h.create hexec
  · next hsub hrest =>
      rw [hsub, hrest]
      exact h.setId hexec
  · next hsub hrest =>
      rw [hsub, hrest]
      rcases h.destroy hexec with ⟨hnone, rfl⟩ | ⟨hsome, hinv⟩
      · simp only [hnone, Option.isSome_none, Bool.false_eq_true, if_false, only_nil,
          List.append_nil]
        exact h
      · simp only [hsome, if_true]
        exact hinv
  · next c hsub hrest =>
      rw [hsub, hrest]
      exact h.consumer hexec
  · next c hsub hrest =>
      rw [hsub, hrest]
      exact h.consumer hexec
  · cases hexec

/-- The groups of an XREADGROUP exist when it is parsed. -/
theorem parseStarts_exist
    {db : Db} {g : Bytes} {names : List (Bytes × Bytes)} {starts : List (Bytes × Start)}
    (h : parseStarts db g names = .ok starts) :
    ∀ e ∈ starts, (db e.1).groups[g]?.isSome ∧ ∃ s, (db e.1).kind = .stream s := by
  induction names generalizing starts with
  | nil =>
      cases h
      simp
  | cons kv names ih =>
      obtain ⟨k, idv⟩ := kv
      simp only [parseStarts] at h
      split at h
      · cases h
      · next found hload =>
          split at h
          · cases h
          · next hexist =>
              rw [Bool.or_eq_true, not_or] at hexist
              split at h
              · cases h
              · split at h
                · cases h
                · next sts hsts =>
                    cases h
                    rw [List.forall_mem_cons]
                    refine ⟨⟨?_, ?_⟩, ih hsts⟩
                    · rw [← Option.not_isNone, Bool.not_eq_true']
                      exact Bool.eq_false_of_not_eq_true hexist.2
                    · unfold load at hload
                      split at hload
                      · cases hload
                        exact absurd rfl hexist.1
                      · cases hload
                      · next s hkind => exact ⟨s, hkind⟩

theorem exists_of_parseReadGroup
    {a : List Bytes} {db : Db} {r : ReadGroup} (h : parseReadGroup a db = .ok r) :
    ∀ e ∈ r.starts, (db e.1).groups[r.g]?.isSome ∧ ∃ s, (db e.1).kind = .stream s := by
  unfold parseReadGroup at h
  split at h
  · cases h
  · split at h
    · split at h
      · cases h
      · split at h
        · cases h
        · split at h
          · cases h
          · simp only at h
            split at h
            · cases h
            · next sts hsts =>
                cases h
                exact parseStarts_exist hsts
    · cases h

/-- What an XREADGROUP does to every key. -/
theorem xreadgroup_read
    {now : UInt64} {a : List Bytes} {db db' : Db} {res : Result} {r : ReadGroup}
    (hparse : parseReadGroup a db = .ok r)
    (hexec : Stream.xreadgroup now a db = .ok (res, db')) :
    ∃ out, res = .reads out ∧ ∀ k,
      ReadOf r.g r.c r.opts.noack (newIds k out) (db k) (db' k) ∧
      ((k, .new) ∈ r.starts → UsedUp r.g r.opts (newIds k out) (db' k)) := by
  unfold Stream.xreadgroup at hexec
  rw [hparse] at hexec
  cases hexec
  have hexist := exists_of_parseReadGroup hparse
  obtain ⟨new, hout, hkeys⟩ :=
    readStreams_read now r.g r.c r.opts r.starts [] db fun e he => (hexist e he).1
  rw [List.nil_append] at hout
  refine ⟨_, rfl, ?_⟩
  intro k
  obtain ⟨hread, hused⟩ := hkeys k
  rw [hout]
  exact ⟨hread, fun hmem => hused hmem (hexist _ hmem).2⟩

theorem ReadOf.keyInv
    {g c : Bytes} {noack : Bool} {ids : List Id} {d d' : KeyData} {log : Bytes → List Ev}
    (h : ReadOf g c noack ids d d') (hinv : KeyInv d log) :
    KeyInv d' fun g' => log g' ++ only g (ids.map (.delivered c · noack)) g' := by
  rcases h with ⟨rfl, rfl⟩ | ⟨gr, gr', h⟩
  · simp only [List.map_nil, only_nil, List.append_nil]
    exact hinv
  · exact h.keyInv hinv

/-- Every command keeps what is stored in agreement with the histories. -/
theorem DbInv.exec
    {db db' : Db} {log : Bytes → Bytes → List Ev} (h : DbInv db log) {cmd : Cmd} {res : Result}
    (hexec : cmd.exec db = .ok (res, db')) :
    DbInv db' fun k g => log k g ++ cmd.events db res k g := by
  cases cmd with
  | xadd now key a =>
      obtain ⟨d, hd, rfl⟩ := exists_of_onKey hexec
      obtain ⟨r, hr⟩ := exists_of_plain hd
      simp only [Cmd.events, List.append_nil]
      exact h.quiet ((h key).sameGroups (sameGroups_xadd hr))
  | xdel key a =>
      obtain ⟨d, hd, rfl⟩ := exists_of_onKey hexec
      obtain ⟨r, hr⟩ := exists_of_plain hd
      simp only [Cmd.events, List.append_nil]
      exact h.quiet ((h key).sameGroups (sameGroups_xdel hr))
  | xtrim key a =>
      obtain ⟨d, hd, rfl⟩ := exists_of_onKey hexec
      obtain ⟨r, hr⟩ := exists_of_plain hd
      simp only [Cmd.events, List.append_nil]
      exact h.quiet ((h key).sameGroups (sameGroups_xtrim hr))
  | xreadgroup now a =>
      cases hparse : parseReadGroup a db with
      | error e =>
          simp only [Cmd.exec, Stream.xreadgroup, hparse] at hexec
          cases hexec
      | ok r =>
          obtain ⟨out, rfl, hkeys⟩ := xreadgroup_read hparse hexec
          simp only [Cmd.events, hparse]
          exact fun k => (hkeys k).1.keyInv (h k)
  | xack key g a =>
      obtain ⟨d, hd, rfl⟩ := exists_of_onKey hexec
      rcases (h key).xack hd with ⟨hgroup, rfl⟩ | ⟨sg, ids, hgroup, hids, hinv⟩
      · simp only [Cmd.events, hgroup, List.append_nil]
        exact h.quiet (h key)
      · simp only [Cmd.events, hgroup, hids]
        exact h.update hinv
  | xclaim now key g c a =>
      obtain ⟨d, hd, rfl⟩ := exists_of_onKey hexec
      obtain ⟨x, es, hx, rfl, hinv⟩ := (h key).xclaim hd
      simp only [Cmd.events, hx]
      exact h.update hinv
  | xautoclaim now key g c a =>
      obtain ⟨d, hd, rfl⟩ := exists_of_onKey hexec
      obtain ⟨next, justid, es, deleted, rfl, hinv⟩ := (h key).xautoclaim hd
      simp only [Cmd.events]
      exact h.update hinv
  | xgroup now a =>
      simp only [Cmd.exec] at hexec
      cases hparse : parseGroupCmd a with
      | error e =>
          rw [hparse] at hexec
          cases hexec
      | ok x =>
          rw [hparse] at hexec
          obtain ⟨d, hd, rfl⟩ := exists_of_onKey hexec
          simp only [Cmd.events, hparse]
          exact h.update ((h x.key).xgroup hd)

/-! ## Runs -/

/-- The stream keys, with the histories of all groups. -/
structure Traced where
  db : Db
  log : Bytes → Bytes → List Ev

namespace Traced

def fresh : Traced := { db := fun _ => .empty, log := fun _ _ => [] }

/-- A command that fails changes nothing. -/
def step (t : Traced) (cmd : Cmd) : Traced :=
  match cmd.exec t.db with
  | .error _ => t
  | .ok (res, db') => { db := db', log := fun k g => t.log k g ++ cmd.events t.db res k g }

def run (cmds : List Cmd) : Traced := cmds.foldl step fresh

theorem dbInv_step {t : Traced} (h : DbInv t.db t.log) (cmd : Cmd) :
    DbInv (t.step cmd).db (t.step cmd).log := by
  unfold step
  split
  · exact h
  · next res db' hexec => exact h.exec hexec

theorem dbInv_run (cmds : List Cmd) : DbInv (run cmds).db (run cmds).log := by
  have hfold : ∀ t : Traced, DbInv t.db t.log →
      DbInv (cmds.foldl step t).db (cmds.foldl step t).log := by
    induction cmds with
    | nil => exact fun t h => h
    | cons cmd cmds ih => exact fun t h => ih (t.step cmd) (dbInv_step h cmd)
  exact hfold fresh fun _ _ => GroupInv.empty

end Traced

/-! ## The guarantees of a group -/

/-- An XREADGROUP that reads new entries of the stream `k` for a group skips none:
an entry that is there and behind the group's last delivered ID is read, or it is
behind the new one too and as many entries as asked for were read. -/
def NeverSkips (db : Db) (k g : Bytes) : Prop :=
  ∀ now a r res db', parseReadGroup a db = .ok r → r.g = g → (k, .new) ∈ r.starts →
    Stream.xreadgroup now a db = .ok (res, db') →
      ∃ out gr gr', res = .reads out ∧ (db k).groups[g]? = some gr ∧ (db' k).groups[g]? = some gr' ∧
        (∀ id ∈ newIds k out, gr.last < id ∧ id ≤ gr'.last ∧ id ∈ (db k).entries) ∧
        ∀ id ∈ (db k).entries, gr.last < id → id ∈ newIds k out ∨
          (gr'.last < id ∧ r.opts.count ≠ 0 ∧ r.opts.count ≤ (newIds k out).length)

theorem neverSkips (db : Db) (k g : Bytes) : NeverSkips db k g := by
  intro now a r res db' hparse hg hmem hexec
  subst hg
  obtain ⟨out, hres, hkeys⟩ := xreadgroup_read hparse hexec
  obtain ⟨hread, hused⟩ := hkeys k
  obtain ⟨hexists, _⟩ := exists_of_parseReadGroup hparse _ hmem
  rw [Option.isSome_iff_exists] at hexists
  obtain ⟨gr, hgr⟩ := hexists
  rcases hread with ⟨hids, hsame⟩ | ⟨gr₁, gr', hread⟩
  · refine ⟨out, gr, gr, hres, hgr, ?_, by simp [hids], ?_⟩
    · rw [hsame]
      exact hgr
    · intro id hid hlt
      rw [hsame] at hused
      exact Or.inr ⟨hlt, hused hmem gr hgr id hid hlt⟩
  · refine ⟨out, gr₁, gr', hres, hread.before, hread.after, hread.above, ?_⟩
    intro id hid hlt
    rcases le_or_gt id gr'.last with hle | hbehind
    · exact Or.inl (hread.between id hid hlt hle)
    · refine Or.inr ⟨hbehind, hused hmem gr' hread.after id ?_ hbehind⟩
      rw [hread.entries]
      exact hid

/-- An ID is pending exactly for the consumer that owes its acknowledgement. -/
def PendingIsOwed (d : KeyData) (g : Bytes) (log : List Ev) : Prop :=
  ∀ id, Sound log id → ∀ c, ownerOf (d.pels g) id = some c ↔ owner log id = some c

/-- Nothing that XGROUP DESTROY left behind, and no consumer that the listing of
consumers does not reach. -/
def AllListed (d : KeyData) (g : Bytes) (log : List Ev) : Prop :=
  (∀ id ∈ d.pels g, Sound log id) ∧
    ∀ c ∈ d.cons g, ¬ ([0xff, 0xff] : Bytes).isPrefixOf c

theorem listed_of_allListed
    {d : KeyData} {g : Bytes} {log : List Ev}
    (hinv : GroupInv d.groups[g]? (d.pels g) (d.cons g) log) (hall : AllListed d g log) :
    ∀ e ∈ pending d g, e.2.owner ∈ (d.consumers g).map Prod.fst := by
  intro e he
  have hp := (mem_range.mp he).1
  have hsound : Sound log e.1 := by
    refine hall.1 e.1 ?_
    rw [← isSome_iff_mem, hp]
    rfl
  have howner : owner log e.1 = some e.2.owner := by
    rw [← hinv.owned e.1 hsound, ownerOf, hp]
    rfl
  have hknown := hinv.consumer e.1 e.2.owner hsound howner
  have hlisted := hall.2 e.2.owner hknown
  rw [Std.ExtTreeMap.mem_iff_isSome_getElem?, Option.isSome_iff_exists] at hknown
  obtain ⟨con, hcon⟩ := hknown
  refine List.mem_map.mpr ⟨(e.2.owner, con), List.mem_filter.mpr ⟨?_, ?_⟩, rfl⟩
  · exact Std.ExtTreeMap.mem_toList_iff_getElem?_eq_some.mpr hcon
  · rw [Bool.not_eq_true']
    exact Bool.eq_false_of_not_eq_true hlisted

/-- Whether an acknowledgement of `id` is due, when nothing but XACK settles it. -/
def unacked (log : List Ev) (id : Id) : Bool :=
  log.foldl (fun due ev =>
    match ev with
    | .delivered _ id' noack => due || (id' == id && !noack)
    | .claimed _ id' => due || id' == id
    | .acked id' => due && id' != id
    | _ => due) false

/-- An entry is delivered and its consumer deleted. -/
def deletingConsumer : List Cmd :=
  [.xadd 0 [1] [utf8 "5-1", utf8 "f", utf8 "v"],
    .xgroup 0 [utf8 "CREATE", [1], [2], utf8 "0"],
    .xreadgroup 0 [utf8 "GROUP", [2], [3], utf8 "STREAMS", [1], utf8 ">"],
    .xgroup 0 [utf8 "DELCONSUMER", [1], [2], [3]]]

end Stream
end StrikeDB
