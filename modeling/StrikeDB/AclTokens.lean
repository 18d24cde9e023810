import StrikeDB.Acl
import StrikeDB.Runs

/-!
# StrikeDB: the tokens of a user

* `Separable`: nothing in the table looks like a separator, upper case gives every command back
  from its lower case, and no line but the last ends with a carriage return.
* `apply_token_cases`: what one token of `ACL SETUSER` can do to a user.
* `formed_run`: what holds of every table that `ACL SETUSER` and `ACL DELUSER` make.
-/

namespace StrikeDB
namespace Acl

/-! ## Separators -/

/-- Neither a space nor a line feed. -/
def Plain (t : Text) : Prop := SPACE ∉ t ∧ NEWLINE ∉ t

instance (t : Text) : Decidable (Plain t) := inferInstanceAs (Decidable (_ ∧ _))

theorem plain_cons {b : UInt8} {t : Text} :
    Plain (b :: t) ↔ b ≠ SPACE ∧ b ≠ NEWLINE ∧ Plain t := by
  simp only [Plain, List.mem_cons, not_or]
  tauto

/-- Upper case leaves everything but letters. -/
theorem uppercase_eq_iff {b : UInt8} (hb : b < 0x41) (c : UInt8) :
    (if 97 ≤ c ∧ c ≤ 122 then c - 32 else c) = b ↔ c = b := by
  have hnat : b.toNat < 65 := hb
  split
  · next hc =>
      have hlow : 97 ≤ c.toNat := UInt8.le_iff_toNat_le.mp hc.1
      have hsub : (c - 32).toNat = c.toNat - 32 :=
        UInt8.toNat_sub_of_le c 32 (UInt8.le_iff_toNat_le.mpr (by simp; omega))
      rw [← UInt8.toNat_inj, ← UInt8.toNat_inj, hsub]
      omega
  · exact Iff.rfl

theorem uppercase_cons (c : UInt8) (t : Text) :
    Text.to_ascii_uppercase (c :: t) =
      (if 97 ≤ c ∧ c ≤ 122 then c - 32 else c) :: Text.to_ascii_uppercase t := rfl

theorem count_uppercase {b : UInt8} (hb : b < 0x41) (t : Text) :
    (Text.to_ascii_uppercase t).count b = t.count b := by
  induction t with
  | nil => rfl
  | cons c t ih =>
      rw [uppercase_cons, List.count_cons, List.count_cons, ih]
      simp only [beq_iff_eq, uppercase_eq_iff hb]

theorem mem_uppercase {b : UInt8} (hb : b < 0x41) {t : Text} :
    b ∈ Text.to_ascii_uppercase t ↔ b ∈ t := by
  rw [← List.count_pos_iff, ← List.count_pos_iff, count_uppercase hb]

theorem plain_uppercase {t : Text} : Plain (Text.to_ascii_uppercase t) ↔ Plain t := by
  rw [Plain, Plain, mem_uppercase (by decide), mem_uppercase (by decide)]

def Rule.Plain : Rule → Prop
  | .AllowCmd c => Acl.Plain c
  | .DenyCmd c => Acl.Plain c
  | _ => True

/-- Is the command given back in upper case by its lower case? -/
def Rule.SameCase (to_lowercase : Text → Text) : Rule → Prop
  | .AllowCmd c => Text.to_ascii_uppercase (to_lowercase c) = c
  | .DenyCmd c => Text.to_ascii_uppercase (to_lowercase c) = c
  | _ => True

instance : (r : Rule) → Decidable r.Plain
  | .AllowCmd c => inferInstanceAs (Decidable (Acl.Plain c))
  | .DenyCmd c => inferInstanceAs (Decidable (Acl.Plain c))
  | .AllowCat _ => isTrue trivial
  | .DenyCat _ => isTrue trivial

instance (to_lowercase : Text → Text) : (r : Rule) → Decidable (r.SameCase to_lowercase)
  | .AllowCmd c => inferInstanceAs (Decidable (Text.to_ascii_uppercase (to_lowercase c) = c))
  | .DenyCmd c => inferInstanceAs (Decidable (Text.to_ascii_uppercase (to_lowercase c) = c))
  | .AllowCat _ => isTrue trivial
  | .DenyCat _ => isTrue trivial

structure User.Plain (u : User) : Prop where
  name : Acl.Plain u.name
  patterns : ∀ p ∈ u.key_patterns, Acl.Plain p
  rules : ∀ r ∈ u.rules, r.Plain

/-- The table can be told from its text. -/
structure Separable (to_lowercase : Text → Text) (s : AclStore) : Prop where
  plain : ∀ (name : Text) (u : User), s.users[name]? = some u → u.Plain
  sameCase : ∀ (name : Text) (u : User), s.users[name]? = some u →
    ∀ r ∈ u.rules, r.SameCase to_lowercase
  lineEnds : ∀ l ∈ (s.lines to_lowercase).dropLast, l.getLast? ≠ some RETURN

/-! ## Tokens -/

section Tokens

variable {hash_password : Text → Salt → Hash}

/-- The words that are tokens by themselves. -/
def keywords : List Text :=
  [utf8 "on", utf8 "off", utf8 "nopass", utf8 "resetpass", utf8 "allkeys", utf8 "resetkeys",
    utf8 "allcommands", utf8 "nocommands", utf8 "reset"]

/-- The characters that open the other tokens. -/
def marks : List UInt8 := [0x23, 0x3e, 0x7e, 0x2b, 0x2d]

/-- How the keywords are spelled: in lower case, without a mark in front and without
blanks; so is the pattern of all keys. -/
theorem spelling :
    (∀ k ∈ keywords, ascii_lowercase k = k) ∧
      (∀ k ∈ keywords, ∀ b ∈ marks, k.head? ≠ some b) ∧
      (∀ k ∈ utf8 "*" :: keywords, Plain k ∧ RETURN ∉ k) ∧
      (utf8 "off" ≠ utf8 "on" ∧ utf8 "nopass" ≠ utf8 "on" ∧ utf8 "nopass" ≠ utf8 "off") ∧
      (∀ k ∈ keywords.dropLast, utf8 "reset" ≠ k) := by
  decide +kernel

theorem keyword_lower {k : Text} (h : k ∈ keywords) : ascii_lowercase k = k := spelling.1 k h

theorem keyword_head {k : Text} (h : k ∈ keywords) {b : UInt8} (hb : b ∈ marks) :
    k.head? ≠ some b := spelling.2.1 k h b hb

theorem keyword_plain {k : Text} (h : k ∈ utf8 "*" :: keywords) : Plain k ∧ RETURN ∉ k :=
  spelling.2.2.1 k h

theorem ne_of_head
    {b : UInt8} {k : Text} (hb : ¬ (65 ≤ b ∧ b ≤ 90)) (hk : k.head? ≠ some b) (t : Text) :
    ascii_lowercase (b :: t) ≠ k := by
  rintro rfl
  apply hk
  rw [ascii_lowercase, List.map_cons, if_neg hb]
  rfl

/-- A token that begins with a mark is no keyword. -/
theorem apply_token_mark
    {b : UInt8} (hb : b ∈ marks) (username : Text) (u : User) (t : Text) (salt : Salt) :
    apply_token hash_password username u (b :: t) salt =
      apply_modifier hash_password u (b :: t) salt := by
  have hupper : ¬ (65 ≤ b ∧ b ≤ 90) := by
    simp only [marks, List.mem_cons, List.not_mem_nil, or_false] at hb
    rcases hb with rfl | rfl | rfl | rfl | rfl <;> decide
  have hne : ∀ k ∈ keywords, ascii_lowercase (b :: t) ≠ k :=
    fun k hk => ne_of_head hupper (keyword_head hk hb) t
  simp only [keywords, List.forall_mem_cons] at hne
  obtain ⟨h₁, h₂, h₃, h₄, h₅, h₆, h₇, h₈, h₉, _⟩ := hne
  simp only [apply_token, if_neg h₁, if_neg h₂, if_neg h₃, if_neg h₄, if_neg h₅, if_neg h₆,
    if_neg h₇, if_neg h₈, if_neg h₉]

theorem apply_token_reset (username : Text) (u : User) (salt : Salt) :
    apply_token hash_password username u (utf8 "reset") salt =
      .ok (User.new_restricted username) := by
  have heq : ascii_lowercase (utf8 "reset") = utf8 "reset" := keyword_lower (by simp [keywords])
  have hne : ∀ k ∈ keywords.dropLast, ascii_lowercase (utf8 "reset") ≠ k := by
    rw [heq]
    exact spelling.2.2.2.2
  simp only [keywords, List.dropLast_cons_cons, List.dropLast_singleton, List.forall_mem_cons] at hne
  obtain ⟨h₁, h₂, h₃, h₄, h₅, h₆, h₇, h₈, _⟩ := hne
  simp only [apply_token, if_neg h₁, if_neg h₂, if_neg h₃, if_neg h₄, if_neg h₅, if_neg h₆,
    if_neg h₇, if_neg h₈, if_pos heq]

theorem apply_token_enabled (username : Text) (u : User) (on : Bool) (salt : Salt) :
    apply_token hash_password username u (if on then utf8 "on" else utf8 "off") salt =
      .ok { u with enabled := on } := by
  cases on with
  | true =>
      have heq : ascii_lowercase (utf8 "on") = utf8 "on" := keyword_lower (by simp [keywords])
      simp [apply_token, heq]
  | false =>
      have heq : ascii_lowercase (utf8 "off") = utf8 "off" := keyword_lower (by simp [keywords])
      simp [apply_token, heq, spelling.2.2.2.1.1]

theorem apply_token_nopass (username : Text) (u : User) (salt : Salt) :
    apply_token hash_password username u (utf8 "nopass") salt = .ok { u with password := none } := by
  have heq : ascii_lowercase (utf8 "nopass") = utf8 "nopass" := keyword_lower (by simp [keywords])
  obtain ⟨-, hon, hoff⟩ := spelling.2.2.2.1
  rw [apply_token, heq]
  simp only [if_neg hon, if_neg hoff, if_true]

theorem apply_token_pattern (username : Text) (u : User) (p : Text) (salt : Salt) :
    apply_token hash_password username u (0x7e :: p) salt =
      .ok { u with key_patterns := u.key_patterns ++ [p] } := by
  rw [apply_token_mark (by decide)]
  rfl

/-! ### Passwords -/

theorem hexByte_encode : ∀ b : UInt8,
    hexByte (hexDigit (b >>> 4)) (hexDigit (b &&& 15)) = some b :=
  forall_byte (by decide +kernel)

theorem hexDecode_encode (bs : Bytes) : hexDecode (hex_encode bs) = some bs := by
  induction bs with
  | nil => rfl
  | cons b bs ih =>
      have hcons : hex_encode (b :: bs) =
          hexDigit (b >>> 4) :: hexDigit (b &&& 15) :: hex_encode bs := rfl
      rw [hcons, hexDecode, hexByte_encode, ih]

theorem mem_hex_encode {c : UInt8} {bs : Bytes} (h : c ∈ hex_encode bs) :
    (hexValue c).isSome = true := by
  obtain ⟨b, _, hb⟩ := List.mem_flatMap.mp h
  have hdigits : ∀ b : UInt8, (hexValue (hexDigit (b >>> 4))).isSome = true ∧
      (hexValue (hexDigit (b &&& 15))).isSome = true := forall_byte (by decide +kernel)
  rw [List.mem_cons, List.mem_singleton] at hb
  rcases hb with rfl | rfl
  · exact (hdigits b).1
  · exact (hdigits b).2

theorem not_mem_hex_encode {c : UInt8} (hc : hexValue c = none) (bs : Bytes) :
    c ∉ hex_encode bs := by
  intro h
  have hsome := mem_hex_encode h
  rw [hc] at hsome
  cases hsome

theorem splitOnce_append {sep : UInt8} {t : Text} (h : sep ∉ t) (t' : Text) :
    splitOnce sep (t ++ [sep] ++ t') = some (t, t') := by
  induction t with
  | nil => simp [splitOnce]
  | cons b t ih =>
      simp only [List.mem_cons, not_or] at h
      have hb : b ≠ sep := fun heq => h.1 heq.symm
      simp only [List.cons_append, splitOnce, if_neg hb]
      have hrest := ih h.2
      simp only [List.append_assoc, List.cons_append, List.nil_append] at hrest ⊢
      rw [hrest]
      rfl

theorem parse_hashed_encode (p : Salt × Hash) :
    parse_hashed (hex_encode p.1.1 ++ [COLON] ++ hex_encode p.2.1) = some p := by
  rw [parse_hashed, splitOnce_append (not_mem_hex_encode (by decide) p.1.1)]
  simp only [hexDecode_encode, p.1.2, p.2.2, dif_pos]

theorem apply_token_password
    (username : Text) (u : User) (p : Option (Salt × Hash)) (salt : Salt) :
    apply_token hash_password username u (passwordToken p) salt = .ok { u with password := p } := by
  cases p with
  | none => exact apply_token_nopass username u salt
  | some p =>
      obtain ⟨s, h⟩ := p
      rw [passwordToken, apply_token_mark (by decide), apply_modifier]
      simp only [parse_hashed_encode (s, h)]

/-! ### What a token may do -/

def Rule.command (allow : Bool) (c : Text) : Rule := if allow then .AllowCmd c else .DenyCmd c

theorem parse_rule_cases
    {rest : Text} {allow : Bool} {r : Rule} (h : parse_rule rest allow = .ok r) :
    (∃ c, r = .AllowCat c ∨ r = .DenyCat c) ∨
      rest ≠ [] ∧ rest.head? ≠ some 0x40 ∧ r = Rule.command allow (Text.to_ascii_uppercase rest) := by
  unfold parse_rule at h
  split at h
  · split at h
    · cases h
    · next c _ =>
        cases h
        refine Or.inl ⟨c, ?_⟩
        cases allow
        · exact Or.inr rfl
        · exact Or.inl rfl
  · cases h
  · next hcat hnil =>
      cases h
      refine Or.inr ⟨fun hnil' => hnil hnil', ?_, by cases allow <;> rfl⟩
      intro hhead
      obtain ⟨t, ht⟩ := List.head?_eq_some_iff.mp hhead
      exact hcat t ht

/-- What a token does to the patterns and rules of a user. -/
inductive TokenStep (username : Text) (u : User) (t : Text) (u' : User) : Prop
  | switch : u'.name = u.name → u'.key_patterns = u.key_patterns → u'.rules = u.rules →
      TokenStep username u t u'
  | keys (ps : List Bytes) : ps = [utf8 "*"] ∨ ps = [] → u' = { u with key_patterns := ps } →
      TokenStep username u t u'
  | commands (rs : List Rule) : rs = [.AllowCat .All] ∨ rs = [] → u' = { u with rules := rs } →
      TokenStep username u t u'
  | reset : u' = User.new_restricted username → TokenStep username u t u'
  | pattern (pat : Text) : t = 0x7e :: pat →
      u' = { u with key_patterns := u.key_patterns ++ [pat] } → TokenStep username u t u'
  | rule (b : UInt8) (rest : Text) (allow : Bool) (r : Rule) : t = b :: rest →
      parse_rule rest allow = .ok r → u' = { u with rules := u.rules ++ [r] } →
      TokenStep username u t u'

theorem apply_modifier_cases
    {username : Text} {u u' : User} {t : Text} {salt : Salt}
    (h : apply_modifier hash_password u t salt = .ok u') :
    TokenStep username u t u' := by
  unfold apply_modifier at h
  split at h
  · split at h
    · cases h
    · cases h
      exact .switch rfl rfl rfl
  · cases h
    exact .switch rfl rfl rfl
  · next pat =>
      cases h
      exact .pattern pat rfl rfl
  · next rest =>
      cases hr : parse_rule rest true with
      | error e =>
          rw [hr] at h
          cases h
      | ok r =>
          rw [hr] at h
          cases h
          exact .rule 0x2b rest true r rfl hr rfl
  · next rest =>
      cases hr : parse_rule rest false with
      | error e =>
          rw [hr] at h
          cases h
      | ok r =>
          rw [hr] at h
          cases h
          exact .rule 0x2d rest false r rfl hr rfl
  · cases h

theorem apply_token_cases
    {username : Text} {u u' : User} {t : Text} {salt : Salt}
    (h : apply_token hash_password username u t salt = .ok u') :
    TokenStep username u t u' := by
  unfold apply_token at h
  dsimp only at h
  split at h
  · cases h
    exact .switch rfl rfl rfl
  split at h
  · cases h
    exact .switch rfl rfl rfl
  split at h
  · cases h
    exact .switch rfl rfl rfl
  split at h
  · cases h
    exact .switch rfl rfl rfl
  split at h
  · cases h
    exact .keys _ (Or.inl rfl) rfl
  split at h
  · cases h
    exact .keys _ (Or.inr rfl) rfl
  split at h
  · cases h
    exact .commands _ (Or.inl rfl) rfl
  split at h
  · cases h
    exact .commands _ (Or.inr rfl) rfl
  split at h
  · cases h
    exact .reset rfl
  · exact apply_modifier_cases h

/-- What every token keeps, the tokens keep. -/
theorem apply_tokens_induct
    {username : Text} {P : User → Prop} {tokens : List Text}
    (hstep : ∀ u t u', P u → t ∈ tokens → TokenStep username u t u' → P u')
    {u u' : User} {salts : Nat → Salt} (hu : P u)
    (h : apply_tokens hash_password username u tokens salts = .ok u') : P u' := by
  induction tokens generalizing u salts with
  | nil =>
      cases h
      exact hu
  | cons t ts ih =>
      rw [apply_tokens] at h
      split at h
      · cases h
      · next v hv =>
          refine ih (fun u t u' hu ht => hstep u t u' hu (List.mem_cons_of_mem _ ht)) ?_ h
          exact hstep u t v hu (by simp) (apply_token_cases hv)

end Tokens

/-! ## Tables that commands make -/

def Rule.Formed : Rule → Prop
  | .AllowCmd c => c ≠ [] ∧ c.head? ≠ some 0x40
  | .DenyCmd c => c ≠ [] ∧ c.head? ≠ some 0x40
  | _ => True

/-- The user of this name as `ACL SETUSER` leaves it: patterns are strings, and no command is empty
or looks like a category. -/
structure User.Formed (name : Text) (u : User) : Prop where
  name_eq : u.name = name
  patterns : ∀ p ∈ u.key_patterns, Text.from_utf8_lossy p = p
  rules : ∀ r ∈ u.rules, r.Formed

theorem formed_new_restricted (name : Text) : (User.new_restricted name).Formed name :=
  ⟨rfl, fun _ hp => (by cases hp), fun _ hr => (by cases hr)⟩

theorem star_valid : Text.from_utf8_lossy (utf8 "*") = utf8 "*" :=
  Text.lossy_of_ascii (by decide +kernel)

theorem head_uppercase {t : Text} (hne : t ≠ []) (h : t.head? ≠ some 0x40) :
    Text.to_ascii_uppercase t ≠ [] ∧ (Text.to_ascii_uppercase t).head? ≠ some 0x40 := by
  cases t with
  | nil => exact absurd rfl hne
  | cons c t =>
      rw [uppercase_cons]
      refine ⟨by simp, ?_⟩
      rw [List.head?_cons, ne_eq, Option.some.injEq, uppercase_eq_iff (by decide)]
      simpa using h

theorem formed_parse_rule
    {rest : Text} {allow : Bool} {r : Rule} (h : parse_rule rest allow = .ok r) : r.Formed := by
  rcases parse_rule_cases h with ⟨c, rfl | rfl⟩ | ⟨hne, hhead, rfl⟩
  · trivial
  · trivial
  · cases allow
    · exact head_uppercase hne hhead
    · exact head_uppercase hne hhead

/-- A mark is a character of its own. -/
theorem valid_tail {b : UInt8} {t : Text} (hb : b < 0x80)
    (h : Text.from_utf8_lossy (b :: t) = b :: t) : Text.from_utf8_lossy t = t := by
  rw [Text.lossy_cons_ascii (Text.charWidth_of_ascii hb)] at h
  exact (List.cons.inj h).2

theorem formed_step
    {username : Text} {u u' : User} {t : Text} (hu : u.Formed username)
    (ht : Text.from_utf8_lossy t = t) (h : TokenStep username u t u') : u'.Formed username := by
  cases h with
  | switch hname hkeys hrules =>
      exact ⟨hname.trans hu.name_eq, hkeys ▸ hu.patterns, hrules ▸ hu.rules⟩
  | keys ps hps heq =>
      subst heq
      refine ⟨hu.name_eq, ?_, hu.rules⟩
      rcases hps with rfl | rfl
      · intro p hp
        rw [List.mem_singleton.mp hp]
        exact star_valid
      · intro p hp
        cases hp
  | commands rs hrs heq =>
      subst heq
      refine ⟨hu.name_eq, hu.patterns, ?_⟩
      rcases hrs with rfl | rfl
      · intro r hr
        rw [List.mem_singleton.mp hr]
        trivial
      · intro r hr
        cases hr
  | reset heq =>
      subst heq
      exact formed_new_restricted username
  | pattern pat hpat heq =>
      subst heq
      subst hpat
      refine ⟨hu.name_eq, ?_, hu.rules⟩
      intro p hp
      rcases List.mem_append.mp hp with hp | hp
      · exact hu.patterns p hp
      · rw [List.mem_singleton.mp hp]
        exact valid_tail (by decide) ht
  | rule b rest allow r _ hr heq =>
      subst heq
      refine ⟨hu.name_eq, hu.patterns, ?_⟩
      intro r' hr'
      rcases List.mem_append.mp hr' with hr' | hr'
      · exact hu.rules r' hr'
      · rw [List.mem_singleton.mp hr']
        exact formed_parse_rule hr

section Reach

variable (hash_password : Text → Salt → Hash)

/-- Commands arrive as byte strings. -/
inductive AclAct where
  | setuser (username : Bytes) (tokens : List Bytes) (salts : Nat → Salt)
  | deluser (username : Bytes)

def step (s : AclStore) : AclAct → Option AclStore
  | .setuser username tokens salts =>
      match set_user hash_password s (Text.from_utf8_lossy username)
          (tokens.map Text.from_utf8_lossy) salts with
      | .error _ => some s
      | .ok s' => some s'
  | .deluser username => some (del_user s (Text.from_utf8_lossy username)).1

/-- Users are stored under their names, each as `ACL SETUSER` leaves it, and there is a default
user. -/
structure Formed (s : AclStore) : Prop where
  users : ∀ (name : Text) (u : User), s.users[name]? = some u → u.Formed name
  default : (s.users[utf8 "default"]?).isSome = true

variable {hash_password}

theorem getElem?_users_insert (m : Std.ExtTreeMap Text User) (k a : Text) (u : User) :
    (m.insert k u)[a]? = if k = a then some u else m[a]? := by
  rw [Std.ExtTreeMap.getElem?_insert]
  simp only [Std.LawfulEqCmp.compare_eq_iff_eq]

theorem getElem?_users_erase (m : Std.ExtTreeMap Text User) (k a : Text) :
    (m.erase k)[a]? = if k = a then none else m[a]? := by
  rw [Std.ExtTreeMap.getElem?_erase]
  simp only [Std.LawfulEqCmp.compare_eq_iff_eq]

/-- What setting a user does to the table. -/
theorem set_user_cases
    {s s' : AclStore} {username : Text} {tokens : List Text} {salts : Nat → Salt}
    (h : set_user hash_password s username tokens salts = .ok s') :
    ∃ u, apply_tokens hash_password username
        ((s.users[username]?).getD (User.new_restricted username)) tokens salts = .ok u ∧
      s' = { s with users := s.users.insert username u, strict := true } := by
  unfold set_user at h
  dsimp only at h
  split at h
  · cases h
  · next u hu =>
      cases h
      exact ⟨u, hu, rfl⟩

theorem formed_set_user
    {s s' : AclStore} (hs : Formed s) {username : Text} {tokens : List Text} {salts : Nat → Salt}
    (htokens : ∀ t ∈ tokens, Text.from_utf8_lossy t = t)
    (h : set_user hash_password s username tokens salts = .ok s') : Formed s' := by
  obtain ⟨u, hu, rfl⟩ := set_user_cases h
  have hold : ((s.users[username]?).getD (User.new_restricted username)).Formed username := by
    cases hget : s.users[username]? with
    | none => exact formed_new_restricted username
    | some v => exact hs.users username v hget
  have hnew : u.Formed username :=
    apply_tokens_induct (fun _ t _ hv ht hstep => formed_step hv (htokens t ht) hstep) hold hu
  constructor
  · intro name v hv
    rw [getElem?_users_insert] at hv
    split at hv
    · next heq =>
        cases hv
        exact heq ▸ hnew
    · exact hs.users name v hv
  · rw [getElem?_users_insert]
    split
    · rfl
    · exact hs.default

theorem formed_del_user {s : AclStore} (hs : Formed s) (username : Text) :
    Formed (del_user s username).1 := by
  unfold del_user
  split
  · exact hs
  · next hne =>
      split
      · exact hs
      · constructor
        · intro name v hv
          rw [getElem?_users_erase] at hv
          split at hv
          · cases hv
          · exact hs.users name v hv
        · rw [getElem?_users_erase, if_neg hne]
          exact hs.default

theorem formed_step_store {s s' : AclStore} {act : AclAct} (hs : Formed s)
    (h : step hash_password s act = some s') : Formed s' := by
  cases act with
  | setuser username tokens salts =>
      simp only [step] at h
      split at h
      · cases h
        exact hs
      · next hset =>
          cases h
          refine formed_set_user hs ?_ hset
          intro t ht
          obtain ⟨bs, _, rfl⟩ := List.mem_map.mp ht
          exact Text.lossy_lossy bs
  | deluser username =>
      cases h
      exact formed_del_user hs _

theorem formed_new (requirepass : Option Text) (salt : Salt) :
    Formed (AclStore.new hash_password requirepass salt) := by
  constructor
  · intro name v hv
    rw [AclStore.new, getElem?_users_insert] at hv
    split at hv
    · next heq =>
        cases hv
        refine ⟨heq, ?_, ?_⟩
        · intro p hp
          rw [List.mem_singleton.mp hp]
          exact star_valid
        · intro r hr
          rw [List.mem_singleton.mp hr]
          trivial
    · simp at hv
  · rw [AclStore.new, getElem?_users_insert, if_pos rfl]
    rfl

/-- Every table that `ACL SETUSER` and `ACL DELUSER` make. -/
theorem formed_run
    {requirepass : Option Text} {salt : Salt} {s : AclStore}
    (h : Run (step hash_password) (fun _ _ => True)
      (AclStore.new hash_password requirepass salt) s) : Formed s :=
  h.invariant (fun _ _ _ hs _ hst => formed_step_store hs hst) (formed_new requirepass salt)

end Reach

end Acl
end StrikeDB
