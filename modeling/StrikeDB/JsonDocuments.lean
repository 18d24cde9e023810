import StrikeDB.JsonTrees

/-!
# StrikeDB: payloads as JSON

`parse_json` against RFC 8259.  It stops at the sign of an exponent and at surrogates, takes some
numbers and strings that the RFC does not allow, and reads `\b` and `\f` as letters.  Everything
else it reads as the RFC does.

**Results.**
* `parse_json_iff`: the parser takes the documents all of whose numbers and strings it takes.
-/

namespace StrikeDB
namespace Payload

open Text (Valid)

/-! ## Values -/

/-- A parsed document.  An object is a map: it is listed by its keys here. -/
inductive Json (F : Type) where
  | null
  | bool (b : Bool)
  | num (x : F)
  | str (s : Text)
  | arr (l : List (Json F))
  | obj (m : List (Text × Json F))

/-- `HashMap::insert`: the last value of a key stays. -/
def insert {β : Type} (m : List (Text × β)) (k : Text) (v : β) : List (Text × β) :=
  match m with
  | [] => [(k, v)]
  | (k', v') :: m =>
      if k = k' then (k, v) :: m
      else if k < k' then (k, v) :: (k', v') :: m
      else (k', v') :: insert m k v

def json (F : Type) : Algebra Text (List (Text × Json F)) (Json F) where
  null := .null
  bool := .bool
  str := .str
  arr := .arr
  empty := []
  insert := insert
  obj := .obj

section Parse

variable {F : Type} (round : Bool → ℚ → F)

def parse_json (s : Bytes) : Except String (Json F) :=
  document (json F) string (number round .num) (s.length + 1) s

/-- The value that the parser gives to a document. -/
def Tree.parsed (t : Tree) : Option (Json F) :=
  t.eval (json F) (fun n => (n.taken round).map .num) taken

/-- The parser takes the documents all of whose numbers and strings it takes. -/
theorem parse_json_iff (s : Bytes) (v : Json F) :
    parse_json round s = .ok v ↔ ∃ t, Document s t ∧ t.parsed round = some v := by
  unfold parse_json Tree.parsed
  exact document_iff readsStrings (readsNumbers round .num) (Nat.lt_succ_self _) v

/-! ## The RFC -/

/-- The document is one of the RFC. -/
def Tree.Rfc (t : Tree) : Prop := t.All Number.Rfc RfcString

def rfcNumber (n : Number) : Option (Json F) :=
  if n.Rfc then some (.num (round n.negative n.decimal)) else none

def rfcString (s : List Item) : Option Text := if RfcString s then rfcText s else none

/-- The value that a document denotes: numbers as they are rounded, strings as they are decoded. -/
def Tree.denotes (t : Tree) : Option (Json F) := t.eval (json F) (rfcNumber round) rfcString

end Parse

def Members.names : Members → List (Option Text)
  | .nil => []
  | .cons k _ ms => rfcText k :: ms.names

mutual

/-- No object has a name twice. -/
def Tree.UniqueNames : Tree → Prop
  | .arr ts => ts.UniqueNames
  | .obj ms => ms.names.Nodup ∧ ms.UniqueNames
  | _ => True

def Trees.UniqueNames : Trees → Prop
  | .nil => True
  | .cons t ts => t.UniqueNames ∧ ts.UniqueNames

def Members.UniqueNames : Members → Prop
  | .nil => True
  | .cons _ t ms => t.UniqueNames ∧ ms.UniqueNames

end

/-- The text is parsed where it is a document of the RFC, and then into the value that this
denotes.  What a document with a name twice denotes the RFC does not say. -/
def Exact {F : Type} (round : Bool → ℚ → F) (s : Bytes) : Prop :=
  ((∃ v, parse_json round s = .ok v) ↔ ∃ t, Document s t ∧ t.Rfc) ∧
    ∀ v t, parse_json round s = .ok v → Document s t → t.Rfc → t.UniqueNames →
      t.denotes round = some v

/-! ## Tokens -/

/-- The escapes that are read as letters. -/
def Item.Letter (it : Item) : Prop := it = .esc 0x62 ∨ it = .esc 0x66

instance (it : Item) : Decidable it.Letter := inferInstanceAs (Decidable (_ ∨ _))

/-- A number or a string that neither the RFC nor the parser takes. -/
def Tree.Broken (t : Tree) : Prop :=
  t.Has (fun n => ¬ n.Rfc ∧ ¬ n.Loose) fun s => ¬ RfcString s ∧ ¬ LooseString s

/-- A number or a string of the RFC that the parser does not take. -/
def Tree.Strict (t : Tree) : Prop := t.Has Number.Strict StrictString

/-- A number or a string that only the parser takes. -/
def Tree.Loose (t : Tree) : Prop := t.Has Number.Loose LooseString

/-- A string with an escape that is read as a letter. -/
def Tree.Letters (t : Tree) : Prop := t.Has (fun _ => False) fun s => ∃ it ∈ s, it.Letter

/-- No token of the document tells the parser from the RFC; or one is in it that neither takes,
or one that only the RFC takes beside one that only the parser takes. -/
def Agreed (t : Tree) : Prop :=
  t.Broken ∨ (t.Strict ↔ t.Loose) ∧ (t.Loose ∨ ¬ t.UniqueNames ∨ ¬ t.Letters)

/-! ## What is taken -/

section Taken

variable {F : Type} (round : Bool → ℚ → F)

theorem Number.taken_isSome (n : Number) :
    ((n.taken round).map (Json.num (F := F))).isSome = true ↔
      ¬ (¬ n.Rfc ∧ ¬ n.Loose) ∧ ¬ n.Strict := by
  have hsome : ((n.taken round).map (Json.num (F := F))).isSome = true ↔
      n.IsFloat ∧ ¬ n.SignedExponent := by
    rw [Option.isSome_map, Number.taken]
    split_ifs with h
    · exact iff_of_true rfl h
    · exact iff_of_false Bool.false_ne_true h
  have hstrict : n.Strict → n.Rfc := And.left
  have hloose : n.Loose → ¬ n.Rfc := Loose.not_rfc
  rw [hsome, n.taken_iff]
  tauto

theorem taken_isSome_iff (s : List Item) :
    (taken s).isSome = true ↔ ¬ (¬ RfcString s ∧ ¬ LooseString s) ∧ ¬ StrictString s := by
  have hstrict : StrictString s → RfcString s := And.left
  have hloose : LooseString s → ¬ RfcString s := LooseString.not_rfc
  rw [taken_isSome]
  tauto

/-- The parser takes a document that has no broken token and none of the RFC alone. -/
theorem Tree.parsed_isSome (t : Tree) :
    (t.parsed round).isSome = true ↔ ¬ t.Broken ∧ ¬ t.Strict := by
  unfold Tree.parsed Tree.Broken Tree.Strict Tree.Has
  rw [Tree.eval_isSome, not_not, not_not, ← Tree.all_and]
  exact Tree.all_congr (Number.taken_isSome round) taken_isSome_iff t

theorem Tree.rfc_iff (t : Tree) : t.Rfc ↔ ¬ t.Broken ∧ ¬ t.Loose := by
  unfold Tree.Rfc Tree.Broken Tree.Loose Tree.Has
  rw [not_not, not_not, ← Tree.all_and]
  refine Tree.all_congr (fun n => ?_) (fun s => ?_) t
  · have hloose : n.Loose → ¬ n.Rfc := Number.Loose.not_rfc
    tauto
  · have hloose : LooseString s → ¬ RfcString s := LooseString.not_rfc
    tauto

theorem parsed_iff {s : Bytes} {t : Tree} (h : Document s t) :
    (∃ v, parse_json round s = .ok v) ↔ ¬ t.Broken ∧ ¬ t.Strict := by
  rw [← t.parsed_isSome round, Option.isSome_iff_exists]
  refine exists_congr fun v => ?_
  rw [parse_json_iff]
  constructor
  · rintro ⟨t', h', hv⟩
    obtain rfl := h'.unique h
    exact hv
  · exact fun hv => ⟨t, h, hv⟩

theorem rfc_document_iff {s : Bytes} {t : Tree} (h : Document s t) :
    (∃ t, Document s t ∧ t.Rfc) ↔ ¬ t.Broken ∧ ¬ t.Loose := by
  rw [← t.rfc_iff]
  constructor
  · rintro ⟨t', h', hrfc⟩
    obtain rfl := h'.unique h
    exact hrfc
  · exact fun hrfc => ⟨t, h, hrfc⟩

end Taken

end Payload
end StrikeDB
