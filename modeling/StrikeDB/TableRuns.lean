import StrikeDB.Tables

/-!
# StrikeDB: tables that many clients write

TABLE.SET reads a row and writes it back, and the calls of other commands may stand in
between.  `acked` are the columns that were acknowledged, for each row as it was named.

**Results.**
* `Kept.step`: a step that fits keeps every acknowledged column.
* `exact_iff`: rows are apart, scans exact and no column is lost in every state of a run if and
  only if its steps fit.
-/

namespace StrikeDB
namespace Tables

open Memory (MemProg EngineCall State COLON ask mem_scanPrefix keySorted_scanPrefix value_write)

/-! ## Clients -/

inductive Command where
  | set (q : RowName) (cols : List (String × Bytes))
  | del (q : RowName)

namespace Command

def prog : Command → MemProg Bool
  | set q cols => table_set q cols
  | del q => table_del q

/-- What is acknowledged with the command. -/
def ack (acked : RowName → Option Row) : Command → RowName → Option Row
  | set q cols => Function.update acked q (some (insertAll ((acked q).getD ∅) cols))
  | del q => Function.update acked q none

theorem ack_set_self (acked : RowName → Option Row) (q : RowName) (cols : List (String × Bytes)) :
    (set q cols).ack acked q = some (insertAll ((acked q).getD ∅) cols) := Function.update_self ..

theorem ack_set_of_ne {q q' : RowName} (h : q' ≠ q) (acked : RowName → Option Row)
    (cols : List (String × Bytes)) : (set q cols).ack acked q' = acked q' :=
  Function.update_of_ne h ..

theorem ack_del_self (acked : RowName → Option Row) (q : RowName) :
    (del q).ack acked q = none := Function.update_self ..

theorem ack_del_of_ne {q q' : RowName} (h : q' ≠ q) (acked : RowName → Option Row) :
    (del q).ack acked q' = acked q' := Function.update_of_ne h ..

end Command

/-- A command that has begun, the row that it has read, and what is left of it. -/
structure Thread where
  cmd : Command
  read : Row
  prog : MemProg Bool

/-- The row that is read by a call. -/
def Thread.readAfter (th : Thread) : (c : EngineCall) → c.Reply → Row
  | .get _, v => (Option.bind v rowOf).getD ∅
  | _, _ => th.read

structure Sys where
  store : State
  threads : List Thread
  acked : RowName → Option Row

inductive Act where
  | invoke (cmd : Command)
  /-- The next call of a thread. -/
  | call (i : Nat) (ok : Bool)

namespace Sys

/-- A command is acknowledged when it returns without an error. -/
def ackAfter (s : Sys) (th : Thread) : MemProg Bool → RowName → Option Row
  | .ret true => th.cmd.ack s.acked
  | _ => s.acked

def step (s : Sys) : Act → Sys
  | .invoke cmd => { s with threads := s.threads ++ [{ cmd := cmd, read := ∅, prog := cmd.prog }] }
  | .call i ok =>
      match s.threads[i]? with
      | none => s
      | some th =>
          match th.prog with
          | .ret _ => s
          | .call c next =>
              let r := s.store.answer ok c
              { store := r.1
                threads := s.threads.set i
                  { th with read := th.readAfter c r.2, prog := next r.2 }
                acked := s.ackAfter th (next r.2) }

def run (s : Sys) (acts : List Act) : Sys := acts.foldl step s

/-- A store without rows, and no clients. -/
def fresh (store : State) : Sys := { store := store, threads := [], acked := fun _ => none }

/-! ## What clients see -/

/-- Rows are apart, scans show those of the table, and no acknowledged column is lost. -/
structure Exact (s : Sys) : Prop where
  apart : ∀ q q' : RowName, q ≠ q' → s.acked q ≠ none → q.key ≠ q'.key
  absent : ∀ q : RowName, s.acked q = none → ask q.get s.store = none
  held : ∀ q m, s.acked q = some m → ∃ row, ask q.get s.store = some row ∧ Holds row m
  scans : ∀ table, ((ask (table_scan table) s.store).map Prod.fst).Nodup ∧
    ∀ pk row, (pk, row) ∈ ask (table_scan table) s.store ↔
      s.acked { table := table, pk := pk } ≠ none ∧
        ask (RowName.get { table := table, pk := pk }) s.store = some row

/-- The row that TABLE.SET writes with its next call, its columns and what it has read. -/
def writes (s : Sys) : Act → Option (RowName × List (String × Bytes) × Row)
  | .call i true =>
      match s.threads[i]? with
      | some { cmd := .set q cols, read := row, prog := .call (.put_batch _) _ } =>
          some (q, cols, row)
      | _ => none
  | _ => none

/-- A row is written under a plain name, and what it was read with is all that is acknowledged,
other than the columns that are set. -/
def Fits (s : Sys) (act : Act) : Prop :=
  ∀ q cols row, s.writes act = some (q, cols, row) → q.Plain ∧
    ∀ m, s.acked q = some m → ∀ (col : String) (v : Bytes), m[col]? = some v →
      col ∈ cols.map Prod.fst ∨ row[col]? = some v

/-- Every step fits the state before it. -/
def FitsAll (s : Sys) : List Act → Prop
  | [] => True
  | act :: acts => s.Fits act ∧ (s.step act).FitsAll acts

end Sys

/-! ## What is kept -/

/-- How far a command is. -/
inductive Thread.Stage (th : Thread) : Prop where
  | ready (h : th.prog = th.cmd.prog)
  | read {q : RowName} {cols : List (String × Bytes)} (hcmd : th.cmd = .set q cols)
      (h : th.prog = .call (.put_batch [(q.key, .row (insertAll th.read cols))]) .ret)
  | done {ok : Bool} (h : th.prog = .ret ok)

namespace Sys

/-- What a call does. -/
theorem call_cases {s : Sys} (h : ∀ th ∈ s.threads, th.Stage) (i : Nat) (ok : Bool) :
    s.step (.call i ok) = s ∨
    (∃ th q cols row, s.threads[i]? = some th ∧ th.cmd = .set q cols ∧
      s.step (.call i ok) =
        { s with
          threads := s.threads.set i
            { cmd := th.cmd, read := row,
              prog := .call (.put_batch [(q.key, .row (insertAll row cols))]) .ret } }) ∨
    (∃ th q cols, s.threads[i]? = some th ∧ th.cmd = .set q cols ∧
      th.prog = .call (.put_batch [(q.key, .row (insertAll th.read cols))]) .ret ∧
      s.step (.call i ok) =
        { store := s.store.write ok [(q.key, .row (insertAll th.read cols))]
          threads := s.threads.set i { th with prog := .ret ok }
          acked := if ok then th.cmd.ack s.acked else s.acked }) ∨
    (∃ th q, s.threads[i]? = some th ∧ th.cmd = .del q ∧
      th.prog = .call (.delete q.key) .ret ∧
      s.step (.call i ok) =
        { store := s.store.write ok [(q.key, .tombstone)]
          threads := s.threads.set i { th with prog := .ret ok }
          acked := if ok then th.cmd.ack s.acked else s.acked }) := by
  cases hth : s.threads[i]? with
  | none => exact Or.inl (by simp only [step, hth])
  | some th =>
      obtain ⟨cmd, read, prog⟩ := th
      cases h _ (List.mem_of_getElem? hth) with
      | ready hprog =>
          obtain rfl : prog = cmd.prog := hprog
          cases cmd with
          | set q cols =>
              refine Or.inr (Or.inl ⟨_, q, cols, (ask q.get s.store).getD ∅, rfl, rfl, ?_⟩)
              simp only [step, hth]
              rfl
          | del q =>
              refine Or.inr (Or.inr (Or.inr ⟨_, q, rfl, rfl, rfl, ?_⟩))
              simp only [step, hth]
              cases ok <;> rfl
      | @read q cols hcmd hprog =>
          obtain rfl : prog = .call (.put_batch [(q.key, .row (insertAll read cols))]) .ret := hprog
          obtain rfl : cmd = .set q cols := hcmd
          refine Or.inr (Or.inr (Or.inl ⟨_, q, cols, rfl, rfl, rfl, ?_⟩))
          simp only [step, hth]
          cases ok <;> rfl
      | done hprog =>
          obtain rfl := hprog
          exact Or.inl (by simp only [step, hth])

/-- What is kept in every state: each acknowledged column is in the row, and the rows are those
that were acknowledged. -/
structure Kept (s : Sys) : Prop where
  plain : ∀ q, s.acked q ≠ none → q.Plain
  held : ∀ q m, s.acked q = some m → ∃ row, s.store.ks.value q.key = some (.row row) ∧
    Holds row m
  only : ∀ k, utf8 "tbl:" <+: k → (s.store.ks.value k).isSome = true →
    ∃ q : RowName, s.acked q ≠ none ∧ k = q.key
  threads : ∀ th ∈ s.threads, th.Stage

theorem ask_get (q : RowName) (s : State) : ask q.get s = (s.ks.value q.key).bind rowOf := rfl

theorem ask_scan (table : Bytes) (s : State) :
    ask (table_scan table) s =
      (s.scanPrefix ( table_prefix (Text.from_utf8_lossy table))).filterMap fun kv =>
        (rowOf kv.2).map fun r =>
          (Text.from_utf8_lossy
            (kv.1.drop ( table_prefix (Text.from_utf8_lossy table)).length), r) := rfl

theorem Kept.apart {s : Sys} (h : Kept s) {q q' : RowName} (hacked : s.acked q ≠ none)
    (hkey : q'.key = q.key) : q' = q := (h.plain q hacked).eq_of_key hkey

theorem tag_key (q : RowName) : utf8 "tbl:" <+: q.key := by
  rw [RowName.key, row_key, List.append_assoc, List.append_assoc]
  exact List.prefix_append _ _

theorem Kept.absent {s : Sys} (h : Kept s) {q : RowName} (hacked : s.acked q = none) :
    s.store.ks.value q.key = none := by
  by_contra hne
  obtain ⟨q', hq', hkey⟩ := h.only q.key (tag_key q) (Option.isSome_iff_ne_none.mpr hne)
  rw [h.apart hq' hkey] at hacked
  exact hq' hacked

/-- The key of a plain row lies behind the name of no other table. -/
theorem prefix_key_iff {q : RowName} (h : q.Plain) (table : Bytes) :
    table_prefix (Text.from_utf8_lossy table) <+: q.key ↔ q.table = table := by
  constructor
  · rintro ⟨rest, hrest⟩
    have hsplit : Text.from_utf8_lossy table ++ COLON :: rest = q.table ++ COLON :: q.pk := by
      rw [RowName.key, row_key, h.1.1.1, h.2.1.1, table_prefix] at hrest
      simpa using hrest
    have hread : Text.from_utf8_lossy rest = rest := by
      have hboth := congrArg Text.from_utf8_lossy hsplit
      rw [Text.lossy_append_ascii (by decide), Text.lossy_append_ascii (by decide),
        Text.lossy_lossy, h.1.1.1, h.2.1.1, ← hsplit] at hboth
      exact (List.cons.inj (List.append_cancel_left hboth)).2
    have hsame : { table := table, pk := rest } = q := by
      refine h.eq_of_key ?_
      rw [RowName.key, hread, row_key, ← hrest, table_prefix]
    rw [← hsame]
  · rintro rfl
    exact ⟨Text.from_utf8_lossy q.pk, rfl⟩

/-- What is found in a scan is a row of the table. -/
theorem Kept.of_listed {s : Sys} (h : Kept s) {table : Bytes} {kv : Key × Value}
    (hkv : kv ∈ s.store.scanPrefix ( table_prefix (Text.from_utf8_lossy table))) :
    ∃ pk, s.acked { table := table, pk := pk } ≠ none ∧
      kv.1 = RowName.key { table := table, pk := pk } ∧
      Text.from_utf8_lossy (kv.1.drop ( table_prefix (Text.from_utf8_lossy table)).length) = pk := by
  obtain ⟨hpre, hvalue⟩ := (mem_scanPrefix s.store _ _).mp hkv
  have htag : utf8 "tbl:" <+: kv.1 := by
    rw [ table_prefix, List.append_assoc] at hpre
    exact (List.prefix_append _ _).trans hpre
  obtain ⟨q, hacked, hkey⟩ := h.only kv.1 htag (by rw [hvalue]; rfl)
  rw [hkey] at hpre
  obtain rfl := (prefix_key_iff (h.plain q hacked) table).mp hpre
  refine ⟨q.pk, hacked, hkey, ?_⟩
  have hdrop : kv.1.drop ( table_prefix (Text.from_utf8_lossy q.table)).length =
      Text.from_utf8_lossy q.pk := by
    rw [hkey]
    exact List.drop_left
  rw [hdrop, Text.lossy_lossy]
  exact (h.plain q hacked).2.1.1

/-- A scan shows the rows of the table. -/
theorem Kept.mem_scan {s : Sys} (h : Kept s) (table : Bytes) (pk : Text) (row : Row) :
    (pk, row) ∈ ask (table_scan table) s.store ↔
      s.acked { table := table, pk := pk } ≠ none ∧
        ask (RowName.get { table := table, pk := pk }) s.store = some row := by
  rw [ask_scan, List.mem_filterMap]
  constructor
  · rintro ⟨⟨k, v⟩, hmem, hrow⟩
    obtain ⟨hpre, hvalue⟩ := (mem_scanPrefix s.store _ _).mp hmem
    obtain ⟨pk', hacked, rfl, hpk⟩ := h.of_listed hmem
    rw [hpk] at hrow
    obtain ⟨row', hof, heq⟩ := Option.map_eq_some_iff.mp hrow
    obtain ⟨rfl, rfl⟩ := Prod.mk.inj heq
    refine ⟨hacked, ?_⟩
    rw [ask_get, hvalue]
    exact hof
  · rintro ⟨hacked, hget⟩
    rw [ask_get] at hget
    obtain ⟨v, hvalue, hof⟩ := Option.bind_eq_some_iff.mp hget
    have hmem : (RowName.key { table := table, pk := pk }, v) ∈
        s.store.scanPrefix ( table_prefix (Text.from_utf8_lossy table)) := by
      refine (mem_scanPrefix s.store _ _).mpr ⟨?_, hvalue⟩
      exact (prefix_key_iff (h.plain _ hacked) table).mpr rfl
    obtain ⟨pk', hacked', hkey, hpk⟩ := h.of_listed hmem
    refine ⟨_, hmem, ?_⟩
    rw [hof, hpk]
    obtain ⟨-, rfl⟩ := RowName.mk.inj (h.apart hacked' hkey)
    rfl

/-- A scan shows each primary key once. -/
theorem Kept.nodup_scan {s : Sys} (h : Kept s) (table : Bytes) :
    ((ask (table_scan table) s.store).map Prod.fst).Nodup := by
  rw [ask_scan, List.map_filterMap]
  refine List.pairwise_filterMap.mpr ((keySorted_scanPrefix s.store _).imp_of_mem ?_)
  rintro ⟨k, v⟩ ⟨k', v'⟩ hkv hkv' hlt pk hpk pk' hpk' rfl
  obtain ⟨pk₁, _, rfl, hread⟩ := h.of_listed hkv
  obtain ⟨pk₂, _, rfl, hread'⟩ := h.of_listed hkv'
  simp only [Option.map_map, Option.map_eq_some_iff, Function.comp_apply] at hpk hpk'
  obtain ⟨row, _, hrow⟩ := hpk
  obtain ⟨row', _, hrow'⟩ := hpk'
  rw [hread] at hrow
  rw [hread'] at hrow'
  rw [hrow, hrow'] at hlt
  exact KeyLt.irrefl _ hlt

/-- What is kept is what clients see. -/
theorem Kept.exact {s : Sys} (h : Kept s) : Exact s where
  apart := fun _ _ hne hacked hkey => hne (h.apart hacked hkey.symm).symm
  absent := by
    intro q hacked
    rw [ask_get, h.absent hacked]
    rfl
  held := by
    intro q m hacked
    obtain ⟨row, hvalue, hholds⟩ := h.held q m hacked
    exact ⟨row, by rw [ask_get, hvalue]; rfl, hholds⟩
  scans := fun table => ⟨h.nodup_scan table, h.mem_scan table⟩

/-! ## Steps -/

theorem value_put (s : State) (ok : Bool) (k k' : Key) (v : Value) :
    (s.write ok [(k, v)]).ks.value k' = if ok = true ∧ k = k' then live v else s.ks.value k' := by
  cases ok with
  | false => rfl
  | true =>
      rw [show (s.write true [(k, v)]).ks = s.ks.write { key := k, value := v, ts := s.clock + 1 }
        from rfl, value_write]
      simp

theorem stages_set {threads : List Thread} (h : ∀ th ∈ threads, th.Stage) (i : Nat) {th : Thread}
    (hth : th.Stage) : ∀ th' ∈ threads.set i th, th'.Stage := by
  intro th' hmem
  rcases List.mem_or_eq_of_mem_set hmem with hold | rfl
  · exact h th' hold
  · exact hth

/-- The next call of the thread is the write of its row. -/
theorem writes_of {s : Sys} {i : Nat} {th : Thread} {q : RowName} {cols : List (String × Bytes)}
    (hth : s.threads[i]? = some th) (hcmd : th.cmd = .set q cols)
    (hprog : th.prog = .call (.put_batch [(q.key, .row (insertAll th.read cols))]) .ret) :
    s.writes (.call i true) = some (q, cols, th.read) := by
  obtain ⟨cmd, read, prog⟩ := th
  obtain rfl : cmd = .set q cols := hcmd
  obtain rfl : prog = .call (.put_batch [(q.key, .row (insertAll read cols))]) .ret := hprog
  simp only [writes, hth]

theorem step_of_writes {s : Sys} (h : ∀ th ∈ s.threads, th.Stage) {act : Act} {q : RowName}
    {cols : List (String × Bytes)} {row : Row} (hw : s.writes act = some (q, cols, row)) :
    (s.step act).store = s.store.write true [(q.key, .row (insertAll row cols))] ∧
      (s.step act).acked = (Command.set q cols).ack s.acked := by
  unfold writes at hw
  split at hw
  · next i =>
      split at hw
      · next q' cols' row' kvs next hth =>
          obtain ⟨rfl, rfl, rfl⟩ : q' = q ∧ cols' = cols ∧ row' = row := by simpa using hw
          cases h _ (List.mem_of_getElem? hth) with
          | ready hprog => cases hprog
          | read hcmd hprog =>
              cases hcmd
              simp only [Prog.call.injEq, EngineCall.put_batch.injEq] at hprog
              obtain ⟨rfl, hnext⟩ := hprog
              obtain rfl := eq_of_heq hnext
              constructor <;> simp only [step, hth] <;> rfl
          | done hprog => cases hprog
      · cases hw
  · cases hw

/-- A written row has what was acknowledged, and its name is plain. -/
theorem Kept.set {s : Sys} (h : Kept s) {q : RowName} {cols : List (String × Bytes)} {row : Row}
    {threads : List Thread} (hthreads : ∀ th ∈ threads, th.Stage) (hplain : q.Plain)
    (hread : ∀ m, s.acked q = some m → ∀ (col : String) (v : Bytes), m[col]? = some v →
      col ∈ cols.map Prod.fst ∨ row[col]? = some v) :
    Kept
      { store := s.store.write true [(q.key, .row (insertAll row cols))]
        threads := threads
        acked := (Command.set q cols).ack s.acked } where
  plain := by
    intro q' (hacked : (Command.set q cols).ack s.acked q' ≠ none)
    by_cases hq : q' = q
    · exact hq ▸ hplain
    · rw [Command.ack_set_of_ne hq] at hacked
      exact h.plain q' hacked
  held := by
    intro q' m (hacked : (Command.set q cols).ack s.acked q' = some m)
    rw [value_put]
    by_cases hq : q' = q
    · subst hq
      rw [Command.ack_set_self] at hacked
      obtain rfl := Option.some.inj hacked
      refine ⟨_, by rw [if_pos ⟨rfl, rfl⟩]; rfl, holds_insertAll.mpr ?_⟩
      cases hold : s.acked q' with
      | none => exact fun _ _ hcol => by simp at hcol
      | some m => exact hread m hold
    · rw [Command.ack_set_of_ne hq] at hacked
      rw [if_neg fun hkey => hq (hplain.eq_of_key hkey.2.symm)]
      exact h.held q' m hacked
  only := by
    intro k htag hsome
    rw [value_put] at hsome
    change ∃ q', (Command.set q cols).ack s.acked q' ≠ none ∧ k = q'.key
    by_cases hk : q.key = k
    · exact ⟨q, by rw [Command.ack_set_self]; exact nofun, hk.symm⟩
    · rw [if_neg fun hkey => hk hkey.2] at hsome
      obtain ⟨q', hacked, rfl⟩ := h.only k htag hsome
      refine ⟨q', ?_, rfl⟩
      rw [Command.ack_set_of_ne fun heq : q' = q => hk (by rw [heq])]
      exact hacked
  threads := hthreads

/-- A deleted row was the only one with its key. -/
theorem Kept.del {s : Sys} (h : Kept s) (q : RowName) {threads : List Thread}
    (hthreads : ∀ th ∈ threads, th.Stage) :
    Kept
      { store := s.store.write true [(q.key, .tombstone)]
        threads := threads
        acked := (Command.del q).ack s.acked } where
  plain := by
    intro q' (hacked : (Command.del q).ack s.acked q' ≠ none)
    by_cases hq : q' = q
    · rw [hq, Command.ack_del_self] at hacked
      exact absurd rfl hacked
    · rw [Command.ack_del_of_ne hq] at hacked
      exact h.plain q' hacked
  held := by
    intro q' m (hacked : (Command.del q).ack s.acked q' = some m)
    by_cases hq : q' = q
    · rw [hq, Command.ack_del_self] at hacked
      cases hacked
    · rw [Command.ack_del_of_ne hq] at hacked
      rw [value_put, if_neg fun hkey => hq (h.apart (by rw [hacked]; exact nofun) hkey.2).symm]
      exact h.held q' m hacked
  only := by
    intro k htag hsome
    rw [value_put] at hsome
    change ∃ q', (Command.del q).ack s.acked q' ≠ none ∧ k = q'.key
    by_cases hk : q.key = k
    · rw [if_pos ⟨rfl, hk⟩] at hsome
      cases hsome
    · rw [if_neg fun hkey => hk hkey.2] at hsome
      obtain ⟨q', hacked, rfl⟩ := h.only k htag hsome
      refine ⟨q', ?_, rfl⟩
      rw [Command.ack_del_of_ne fun heq : q' = q => hk (by rw [heq])]
      exact hacked
  threads := hthreads

/-- What is not written changes nothing. -/
theorem Kept.frame {s s' : Sys} (h : Kept s) (hstore : s'.store.ks = s.store.ks)
    (hacked : s'.acked = s.acked) (hthreads : ∀ th ∈ s'.threads, th.Stage) : Kept s' where
  plain := by
    rw [hacked]
    exact h.plain
  held := by
    rw [hacked, hstore]
    exact h.held
  only := by
    rw [hacked, hstore]
    exact h.only
  threads := hthreads

/-- A step that fits keeps every acknowledged column. -/
theorem Kept.step {s : Sys} {act : Act} (h : Kept s) (hfits : s.Fits act) : Kept (s.step act) := by
  cases act with
  | invoke cmd =>
      refine h.frame rfl rfl fun th hmem => ?_
      rcases List.mem_append.mp hmem with hold | hnew
      · exact h.threads th hold
      · rw [List.mem_singleton.mp hnew]
        exact .ready rfl
  | call i ok =>
      rcases call_cases h.threads i ok with heq | ⟨th, q, cols, row, hth, hcmd, heq⟩ |
        ⟨th, q, cols, hth, hcmd, hprog, heq⟩ | ⟨th, q, hth, hcmd, hprog, heq⟩
      · rw [heq]
        exact h
      · rw [heq]
        exact h.frame rfl rfl (stages_set h.threads i (.read hcmd rfl))
      · have hdone := @stages_set _ h.threads i { th with prog := .ret ok } (.done rfl)
        rw [heq]
        cases ok with
        | false => exact h.frame rfl rfl hdone
        | true =>
            obtain ⟨hplain, hread⟩ := hfits q cols th.read (writes_of hth hcmd hprog)
            rw [hcmd] at hdone ⊢
            exact h.set hdone hplain hread
      · have hdone := @stages_set _ h.threads i { th with prog := .ret ok } (.done rfl)
        rw [heq]
        cases ok with
        | false => exact h.frame rfl rfl hdone
        | true =>
            rw [hcmd] at hdone ⊢
            exact h.del q hdone

/-- Where clients see what was acknowledged after a step, the step fits. -/
theorem fits_of_exact {s : Sys} {act : Act} (h : Kept s) (hexact : Exact (s.step act)) :
    s.Fits act := by
  intro q cols row hw
  obtain ⟨hstore, hacked⟩ := step_of_writes h.threads hw
  have hself : (s.step act).acked q = some (insertAll ((s.acked q).getD ∅) cols) := by
    rw [hacked, Command.ack_set_self]
  constructor
  · refine (RowName.plain_iff q).mpr fun q' hkey => ?_
    by_contra hne
    exact hexact.apart q q' (Ne.symm hne) (by rw [hself]; exact nofun) hkey.symm
  · intro m hm
    obtain ⟨row', hget, hholds⟩ := hexact.held q _ hself
    rw [ask_get, hstore, value_put, if_pos ⟨rfl, rfl⟩] at hget
    obtain rfl := Option.some.inj hget
    rw [hm] at hholds
    exact holds_insertAll.mp hholds

/-! ## Runs -/

theorem kept_fresh {store : State}
    (h : ∀ k, utf8 "tbl:" <+: k → store.ks.value k = none) : Kept (fresh store) where
  plain := fun _ hacked => absurd rfl hacked
  held := nofun
  only := by
    intro k htag hsome
    rw [show (fresh store).store.ks.value k = none from h k htag] at hsome
    cases hsome
  threads := nofun

theorem exact_of_kept {s : Sys} (h : Kept s) (acts : List Act) :
    (∀ done, done <+: acts → Exact (s.run done)) ↔ s.FitsAll acts := by
  induction acts generalizing s with
  | nil =>
      refine iff_of_true ?_ trivial
      intro done hdone
      rw [List.prefix_nil.mp hdone]
      exact h.exact
  | cons act acts ih =>
      constructor
      · intro hall
        have hfits := fits_of_exact h (hall [act] (by simp))
        refine ⟨hfits, (ih (h.step hfits)).mp fun done hdone => ?_⟩
        exact hall (act :: done) ((List.prefix_cons_inj act).mpr hdone)
      · rintro ⟨hfits, hrest⟩ done hdone
        cases done with
        | nil => exact h.exact
        | cons act' done =>
            obtain ⟨rfl, htail⟩ := List.cons_prefix_cons.mp hdone
            exact (ih (h.step hfits)).mpr hrest done htail

/-- Rows are apart, scans exact and no acknowledged column is lost in every state of a run if and
only if each of its steps fits. -/
theorem exact_iff (store : State) (h : ∀ k, utf8 "tbl:" <+: k → store.ks.value k = none)
    (acts : List Act) :
    (∀ done, done <+: acts → Exact ((fresh store).run done)) ↔ (fresh store).FitsAll acts :=
  exact_of_kept (kept_fresh h) acts

/-! ## Two clients at one row -/

def emptyStore : State := { ks := ∅, clock := 0, ep_seq := 0 }

def ada : RowName := { table := utf8 "users", pk := utf8 "ada" }

def setName : Command := .set ada [("name", utf8 "ada")]

def setTier : Command := .set ada [("tier", utf8 "pro")]

/-- Both clients read before either of them writes. -/
def twoClients : List Act :=
  [.invoke setName, .invoke setTier, .call 0 true, .call 1 true, .call 0 true, .call 1 true]

/-- The name was acknowledged, and the row does not have it. -/
theorem column_lost : ¬ Exact ((fresh emptyStore).run twoClients) := by
  intro h
  have hacked : (((fresh emptyStore).run twoClients).acked ada).map (fun m => m["name"]?) =
      some (some (utf8 "ada")) := by decide +kernel
  have hlost : (ask ada.get ((fresh emptyStore).run twoClients).store).map (fun r => r["name"]?) =
      some none := by decide +kernel
  obtain ⟨m, hm, hname⟩ := Option.map_eq_some_iff.mp hacked
  obtain ⟨row, hget, hholds⟩ := h.held ada m hm
  rw [hget, Option.map_some, hholds "name" _ hname] at hlost
  cases hlost

/-- One client after the other. -/
theorem exact_iff_in_turn :
    (∀ done, done <+: [.invoke setName, .call 0 true, .call 0 true, .invoke setTier, .call 1 true,
        .call 1 true] → Exact ((fresh emptyStore).run done)) ↔
      (fresh emptyStore).FitsAll [.invoke setName, .call 0 true, .call 0 true, .invoke setTier,
        .call 1 true, .call 1 true] :=
  exact_iff emptyStore (fun _ _ => rfl) _

end Sys

end Tables
end StrikeDB
