import StrikeDB.MemoryRuns
import StrikeDB.Names

/-!
# StrikeDB: tables

A row is stored under the name of its table and its primary key, with a separator between
them.  A table is scanned behind its name.

Commands name rows by bytes, and `RowName.plain_iff` says for which names no other name has the
same key.
-/

namespace StrikeDB
namespace Tables

open Memory (MemProg State COLON ask)

abbrev Row := Std.ExtTreeMap String Bytes

def table_prefix (table : Text) : Bytes := utf8 "tbl:" ++ table ++ [COLON]

def row_key (table pk : Text) : Key := utf8 "tbl:" ++ table ++ [COLON] ++ pk

/-- Insert or replace a row by primary key. -/
def upsert (table pk : Text) (row : Row) : MemProg Bool :=
  Memory.put (row_key table pk) (.row row)

def rowOf : Value → Option Row
  | .row r => some r
  | _ => none

def get (table pk : Text) : MemProg (Option Row) := do
  let v ← Memory.get (row_key table pk)
  return v.bind rowOf

def delete (table pk : Text) : MemProg Bool := Memory.delete (row_key table pk)

/-- Full scan of a table. -/
def scan (table : Text) : MemProg (List (Text × Row)) := do
  let kvs ← Memory.scanPrefix ( table_prefix table)
  return kvs.filterMap fun kv => (rowOf kv.2).map fun r =>
    (Text.from_utf8_lossy (kv.1.drop ( table_prefix table).length), r)

/-- The rows in which the column has the value. -/
def filter_eq (table : Text) (col : String) (val : Bytes) : MemProg (List (Text × Row)) := do
  let rows ← scan table
  return rows.filter fun r => r.2[col]? = some val

/-! ## Commands -/

/-- A row as a command names it. -/
@[ext]
structure RowName where
  table : Bytes
  pk : Bytes
deriving DecidableEq

namespace RowName

def key (q : RowName) : Key :=
  row_key (Text.from_utf8_lossy q.table) (Text.from_utf8_lossy q.pk)

/-- What TABLE.GET returns. -/
def get (q : RowName) : MemProg (Option Row) :=
  Tables.get (Text.from_utf8_lossy q.table) (Text.from_utf8_lossy q.pk)

end RowName

def insertAll (row : Row) (cols : List (String × Bytes)) : Row :=
  cols.foldl (fun row c => row.insert c.1 c.2) row

/-- TABLE.SET, with the columns by the names that are read from its arguments. -/
def table_set (q : RowName) (cols : List (String × Bytes)) : MemProg Bool := do
  let row ← q.get
  upsert (Text.from_utf8_lossy q.table) (Text.from_utf8_lossy q.pk) (insertAll (row.getD ∅) cols)

def table_del (q : RowName) : MemProg Bool :=
  delete (Text.from_utf8_lossy q.table) (Text.from_utf8_lossy q.pk)

def table_scan (table : Bytes) : MemProg (List (Text × Row)) := scan (Text.from_utf8_lossy table)

def table_filtereq (table : Bytes) (col : String) (val : Bytes) : MemProg (List (Text × Row)) :=
  filter_eq (Text.from_utf8_lossy table) col val

/-! ## Columns -/

theorem getElem?_insertAll_of_not_mem {cols : List (String × Bytes)} {col : String}
    (h : col ∉ cols.map Prod.fst) (row : Row) : (insertAll row cols)[col]? = row[col]? := by
  induction cols generalizing row with
  | nil => rfl
  | cons c cols ih =>
      rw [List.map_cons, List.mem_cons, not_or] at h
      refine (ih h.2 _).trans ?_
      rw [Std.ExtTreeMap.getElem?_insert, if_neg]
      exact fun heq => h.1 (Std.LawfulEqCmp.eq_of_compare heq).symm

/-- The row has all the columns, with their values. -/
def Holds (row m : Row) : Prop := ∀ (col : String) (v : Bytes), m[col]? = some v → row[col]? = some v

/-- The columns of a command do not depend on what was read. -/
theorem getElem?_insertAll_of_mem {cols : List (String × Bytes)} {col : String}
    (h : col ∈ cols.map Prod.fst) (row row' : Row) :
    (insertAll row cols)[col]? = (insertAll row' cols)[col]? := by
  induction cols generalizing row row' with
  | nil => cases h
  | cons c cols ih =>
      by_cases hlater : col ∈ cols.map Prod.fst
      · exact ih hlater _ _
      · rw [List.map_cons, List.mem_cons] at h
        have hcol := h.resolve_right hlater
        subst hcol
        have hlast (row : Row) : (insertAll row (c :: cols))[c.1]? = some c.2 := by
          refine (getElem?_insertAll_of_not_mem hlater _).trans ?_
          exact Std.ExtTreeMap.getElem?_insert_self
        rw [hlast, hlast]

/-- A row keeps the columns that it was read with, and those that are set. -/
theorem holds_insertAll {cols : List (String × Bytes)} {row m : Row} :
    Holds (insertAll row cols) (insertAll m cols) ↔
      ∀ (col : String) (v : Bytes), m[col]? = some v →
        col ∈ cols.map Prod.fst ∨ row[col]? = some v := by
  constructor
  · intro h col v hcol
    by_cases hset : col ∈ cols.map Prod.fst
    · exact Or.inl hset
    · have hrow := h col v (by rwa [getElem?_insertAll_of_not_mem hset])
      exact Or.inr (by rwa [getElem?_insertAll_of_not_mem hset] at hrow)
  · intro h col v hcol
    by_cases hset : col ∈ cols.map Prod.fst
    · rwa [getElem?_insertAll_of_mem hset row m]
    · rw [getElem?_insertAll_of_not_mem hset] at hcol ⊢
      exact (h col v hcol).resolve_left hset

/-! ## Keys -/

/-- Nothing else is read as the name, and there is no separator in it. -/
def Plain (name : Bytes) : Prop := Text.Sole name ∧ COLON ∉ name

instance (name : Bytes) : Decidable (Plain name) := inferInstanceAs (Decidable (_ ∧ _))

/-- A string is split at its first separator in one way. -/
theorem append_sep_inj {a b u v : Bytes} {sep : UInt8} (ha : sep ∉ a) (hb : sep ∉ b)
    (h : a ++ sep :: u = b ++ sep :: v) : a = b ∧ u = v := by
  have heq : a = b := by
    by_contra hne
    rcases prefix_of_append_sep (k := b ++ sep :: v) ⟨u, by simpa using h⟩ ⟨v, by simp⟩ hne
      with hpre | hpre
    · exact hb (hpre.subset (by simp))
    · exact ha (hpre.subset (by simp))
  subst heq
  exact ⟨rfl, (List.cons.inj (List.append_cancel_left h)).2⟩

namespace RowName

def Plain (q : RowName) : Prop := Tables.Plain q.table ∧ Tables.Plain q.pk

instance (q : RowName) : Decidable q.Plain := inferInstanceAs (Decidable (_ ∧ _))

/-- No other row has the key of a plain one. -/
theorem Plain.eq_of_key {q q' : RowName} (h : q.Plain) (hkey : q'.key = q.key) : q' = q := by
  obtain ⟨⟨htable, hsep⟩, hpk, hsep'⟩ := h
  rw [key, key, htable.1, hpk.1, row_key, row_key] at hkey
  simp only [List.append_assoc, List.append_cancel_left_eq, List.singleton_append] at hkey
  have hsep'' : COLON ∉ Text.from_utf8_lossy q'.table := by
    intro hmem
    obtain ⟨a, rest, hsplit, hfirst⟩ := List.eq_append_cons_of_mem hmem
    rw [hsplit, List.append_assoc, List.cons_append] at hkey
    obtain ⟨-, hrest⟩ := append_sep_inj hfirst hsep hkey
    exact hsep' (by rw [← hrest]; simp)
  obtain ⟨htables, hpks⟩ := append_sep_inj hsep'' hsep hkey
  exact RowName.ext (htable.eq htables) (hpk.eq hpks)

/-- The part of a name in front of its first separator. -/
theorem split_sep {name : Bytes} (h : COLON ∈ Text.from_utf8_lossy name) :
    ∃ a b, Text.from_utf8_lossy name = a ++ COLON :: b ∧ COLON ∉ a ∧ Text.from_utf8_lossy a = a ∧
      Text.from_utf8_lossy b = b := by
  obtain ⟨a, b, hsplit, hfirst⟩ := List.eq_append_cons_of_mem h
  have hread := Text.lossy_lossy name
  rw [hsplit, Text.lossy_append_ascii (by decide)] at hread
  have hfirst' : COLON ∉ Text.from_utf8_lossy a := by
    rwa [Text.mem_lossy_iff (by decide)]
  obtain ⟨ha, hb⟩ := append_sep_inj hfirst' hfirst hread
  exact ⟨a, b, hsplit, hfirst, ha, hb⟩

/-- A row that is not plain shares its key with another. -/
theorem exists_shared {q : RowName} (h : ¬ q.Plain) : ∃ q', q' ≠ q ∧ q'.key = q.key := by
  obtain ⟨table, pk⟩ := q
  by_cases htable : Text.Sole table
  · by_cases hpk : Text.Sole pk
    · by_cases hsep : COLON ∈ table
      · -- the table ends at its first separator
        obtain ⟨a, b, hsplit, hfirst, ha, hb⟩ :=
          split_sep ((Text.mem_lossy_iff (by decide) table).mpr hsep)
        refine ⟨{ table := a, pk := b ++ COLON :: pk }, ?_, ?_⟩
        · intro heq
          exact hfirst ((RowName.mk.inj heq).1 ▸ hsep)
        · rw [key, key, hsplit, ha, Text.lossy_append_ascii (by decide), hb]
          simp [row_key]
      · have hsep' : COLON ∈ pk := by
          by_contra hne
          exact h ⟨⟨htable, hsep⟩, hpk, hne⟩
        -- the table goes on to the first separator of the primary key
        obtain ⟨a, b, hsplit, _, ha, hb⟩ :=
          split_sep ((Text.mem_lossy_iff (by decide) pk).mpr hsep')
        refine ⟨{ table := table ++ COLON :: a, pk := b }, ?_, ?_⟩
        · intro heq
          exact hsep ((RowName.mk.inj heq).1 ▸ List.mem_append_right _ List.mem_cons_self)
        · rw [key, key, hsplit, hb, Text.lossy_append_ascii (by decide), ha]
          simp [row_key]
    · obtain ⟨u, hne, hu⟩ := Text.exists_other hpk
      exact ⟨{ table := table, pk := u }, fun heq => hne (RowName.mk.inj heq).2, by
        rw [key, key, hu]⟩
  · obtain ⟨u, hne, hu⟩ := Text.exists_other htable
    exact ⟨{ table := u, pk := pk }, fun heq => hne (RowName.mk.inj heq).1, by rw [key, key, hu]⟩

example : RowName.key { table := utf8 "a:b", pk := utf8 "c" } =
    RowName.key { table := utf8 "a", pk := utf8 "b:c" } := by decide +kernel

/-- A row is plain if and only if no other has its key. -/
theorem plain_iff (q : RowName) : q.Plain ↔ ∀ q' : RowName, q'.key = q.key → q' = q := by
  constructor
  · exact fun h _ => h.eq_of_key
  · intro h
    by_contra hplain
    obtain ⟨q', hne, hkey⟩ := exists_shared hplain
    exact hne (h q' hkey)

end RowName

end Tables
end StrikeDB
