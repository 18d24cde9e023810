import StrikeDB.AclTokens

/-!
# StrikeDB: the line of a user

* `apply_line`: the tokens of a user's line make this user again, rule by rule.
* `splitOn_line`: the pieces of a plain user's line are its tokens.
-/

namespace StrikeDB
namespace Acl

/-! ## Loading plain lines -/

section Load

variable {hash_password : Text → Salt → Hash}

/-- How many carriage returns there are in patterns and commands. -/
def Rule.returns : Rule → Nat
  | .AllowCmd c => c.count RETURN
  | .DenyCmd c => c.count RETURN
  | _ => 0

def User.returns (u : User) : Nat :=
  (u.key_patterns.map (·.count RETURN)).sum + (u.rules.map Rule.returns).sum

theorem plain_parse_rule
    {rest : Text} {allow : Bool} {r : Rule} (hrest : Plain rest)
    (h : parse_rule rest allow = .ok r) : r.Plain := by
  rcases parse_rule_cases h with ⟨c, rfl | rfl⟩ | ⟨_, _, rfl⟩
  · trivial
  · trivial
  · cases allow
    · exact plain_uppercase.mpr hrest
    · exact plain_uppercase.mpr hrest

theorem returns_parse_rule
    {rest : Text} {allow : Bool} {r : Rule} (h : parse_rule rest allow = .ok r) :
    r.returns ≤ rest.count RETURN := by
  rcases parse_rule_cases h with ⟨c, rfl | rfl⟩ | ⟨_, _, rfl⟩
  · exact Nat.zero_le _
  · exact Nat.zero_le _
  · cases allow
    · exact (count_uppercase (by decide) rest).le
    · exact (count_uppercase (by decide) rest).le

theorem plain_step
    {username : Text} {u u' : User} {t : Text} (husername : Plain username) (hu : u.Plain)
    (ht : Plain t) (h : TokenStep username u t u') : u'.Plain := by
  cases h with
  | switch hname hkeys hrules => exact ⟨hname ▸ hu.name, hkeys ▸ hu.patterns, hrules ▸ hu.rules⟩
  | keys ps hps heq =>
      subst heq
      refine ⟨hu.name, ?_, hu.rules⟩
      rcases hps with rfl | rfl
      · intro p hp
        rw [List.mem_singleton.mp hp]
        exact (keyword_plain List.mem_cons_self).1
      · intro p hp
        cases hp
  | commands rs hrs heq =>
      subst heq
      refine ⟨hu.name, hu.patterns, ?_⟩
      rcases hrs with rfl | rfl
      · intro r hr
        rw [List.mem_singleton.mp hr]
        trivial
      · intro r hr
        cases hr
  | reset heq =>
      subst heq
      exact ⟨husername, fun _ hp => (by cases hp), fun _ hr => (by cases hr)⟩
  | pattern pat hpat heq =>
      subst heq
      subst hpat
      refine ⟨hu.name, ?_, hu.rules⟩
      intro p hp
      rcases List.mem_append.mp hp with hp | hp
      · exact hu.patterns p hp
      · rw [List.mem_singleton.mp hp]
        exact (plain_cons.mp ht).2.2
  | rule b rest allow r hrest hr heq =>
      subst heq
      subst hrest
      refine ⟨hu.name, hu.patterns, ?_⟩
      intro r' hr'
      rcases List.mem_append.mp hr' with hr' | hr'
      · exact hu.rules r' hr'
      · rw [List.mem_singleton.mp hr']
        exact plain_parse_rule (plain_cons.mp ht).2.2 hr

/-- A token brings at most its own carriage returns. -/
theorem returns_step
    {username : Text} {u u' : User} {t : Text} (h : TokenStep username u t u') :
    u'.returns ≤ u.returns + t.count RETURN := by
  cases h with
  | switch hname hkeys hrules =>
      rw [User.returns, hkeys, hrules]
      exact Nat.le_add_right _ _
  | keys ps hps heq =>
      subst heq
      have hzero : (ps.map (·.count RETURN)).sum = 0 := by
        rcases hps with rfl | rfl
        · simpa using List.count_eq_zero.mpr (keyword_plain List.mem_cons_self).2
        · rfl
      simp only [User.returns, hzero]
      omega
  | commands rs hrs heq =>
      subst heq
      have hzero : (rs.map Rule.returns).sum = 0 := by
        rcases hrs with rfl | rfl <;> rfl
      simp only [User.returns, hzero]
      omega
  | reset heq =>
      subst heq
      exact Nat.zero_le _
  | pattern pat hpat heq =>
      subst heq
      subst hpat
      have hcount : (0x7e :: pat).count RETURN = pat.count RETURN :=
        List.count_cons_of_ne (by decide)
      simp only [User.returns, List.map_append, List.sum_append, List.map_cons, List.map_nil,
        List.sum_cons, List.sum_nil, hcount]
      omega
  | rule b rest allow r hrest hr heq =>
      subst heq
      subst hrest
      have hle := returns_parse_rule hr
      have hcount : rest.count RETURN ≤ (b :: rest).count RETURN := List.count_le_count_cons
      simp only [User.returns, List.map_append, List.sum_append, List.map_cons, List.map_nil,
        List.sum_cons, List.sum_nil]
      omega

theorem returns_apply_tokens
    {username : Text} {u u' : User} {tokens : List Text} {salts : Nat → Salt}
    (h : apply_tokens hash_password username u tokens salts = .ok u') :
    u'.returns ≤ u.returns + (tokens.map (·.count RETURN)).sum := by
  induction tokens generalizing u salts with
  | nil =>
      cases h
      exact Nat.le_add_right _ _
  | cons t ts ih =>
      rw [apply_tokens] at h
      split at h
      · cases h
      · next v hv =>
          have hhead := returns_step (apply_token_cases hv)
          have htail := ih h
          rw [List.map_cons, List.sum_cons]
          omega

/-! ### Splitting -/

theorem mem_splitOn
    {sep : UInt8} {t l : Text} (h : l ∈ t.splitOn sep) : sep ∉ l ∧ ∀ b ∈ l, b ∈ t := by
  induction t generalizing l with
  | nil =>
      rw [List.splitOn_nil, List.mem_singleton] at h
      subst h
      simp
  | cons c t ih =>
      rw [List.splitOn_cons_eq_if_modifyHead] at h
      split at h
      · rcases List.mem_cons.mp h with rfl | h
        · simp
        · exact ⟨(ih h).1, fun b hb => List.mem_cons_of_mem _ ((ih h).2 b hb)⟩
      · next hc =>
          obtain ⟨r, rs, hr⟩ := List.exists_cons_of_ne_nil (List.splitOn_ne_nil sep t)
          rw [hr, List.modifyHead_cons] at h
          have hsep : sep ≠ c := fun heq => hc (by simp [heq])
          rcases List.mem_cons.mp h with rfl | h
          · obtain ⟨hnot, hmem⟩ := ih (l := r) (by simp [hr])
            constructor
            · rw [List.mem_cons, not_or]
              exact ⟨hsep, hnot⟩
            · intro b hb
              rcases List.mem_cons.mp hb with rfl | hb
              · exact List.mem_cons_self
              · exact List.mem_cons_of_mem _ (hmem b hb)
          · obtain ⟨hnot, hmem⟩ := ih (l := l) (by simp [hr, h])
            exact ⟨hnot, fun b hb => List.mem_cons_of_mem _ (hmem b hb)⟩

/-- A loaded table has no separators in it. -/
theorem plain_load_lines
    {s s' : AclStore} {ls : List Text} {salts : Nat → Nat → Salt}
    (hls : ∀ l ∈ ls, NEWLINE ∉ l) (hs : ∀ (name : Text) (u : User), s.users[name]? = some u → u.Plain)
    (h : load_lines hash_password s ls salts = .ok s') :
    ∀ (name : Text) (u : User), s'.users[name]? = some u → u.Plain := by
  induction ls generalizing s salts with
  | nil =>
      cases h
      exact hs
  | cons l ls ih =>
      rw [List.forall_mem_cons] at hls
      rw [load_lines] at h
      split at h
      · cases h
      · next name toks hsplit =>
          split at h
          · cases h
          · next s₁ hset =>
              refine ih hls.2 ?_ h
              have hplain : ∀ t ∈ name :: toks, Plain t := by
                intro t ht
                rw [← hsplit] at ht
                obtain ⟨hspace, hmem⟩ := mem_splitOn ht
                exact ⟨hspace, fun hnl => hls.1 (hmem _ hnl)⟩
              rw [List.forall_mem_cons] at hplain
              obtain ⟨u, hu, rfl⟩ := set_user_cases hset
              have hold : ((s.users[name]?).getD (User.new_restricted name)).Plain := by
                cases hget : s.users[name]? with
                | none => exact ⟨hplain.1, fun _ hp => (by cases hp), fun _ hr => (by cases hr)⟩
                | some v => exact hs name v hget
              have hnew : u.Plain := apply_tokens_induct
                (fun _ t _ hv ht hstep => plain_step hplain.1 hv (hplain.2 t ht) hstep) hold hu
              intro name' v hv
              rw [getElem?_users_insert] at hv
              split at hv
              · cases hv
                exact hnew
              · exact hs name' v hv

/-! ### Lines apart -/

/-- Lines for other users leave a user alone. -/
theorem load_lines_other
    {s s' : AclStore} {ls : List Text} {salts : Nat → Nat → Salt} {name : Text}
    (hls : ∀ l ∈ ls, (l.splitOn SPACE).head? ≠ some name)
    (h : load_lines hash_password s ls salts = .ok s') : s'.users[name]? = s.users[name]? := by
  induction ls generalizing s salts with
  | nil =>
      cases h
      rfl
  | cons l ls ih =>
      rw [List.forall_mem_cons] at hls
      rw [load_lines] at h
      split at h
      · cases h
      · next name' toks hsplit =>
          split at h
          · cases h
          · next s₁ hset =>
              rw [ih hls.2 h]
              obtain ⟨u, _, rfl⟩ := set_user_cases hset
              rw [getElem?_users_insert, if_neg]
              rintro rfl
              rw [hsplit] at hls
              exact hls.1 rfl

/-- The user of a line is what its tokens make, when no later line is for the same name. -/
theorem load_lines_user
    {s s' : AclStore} {before after : List Text} {l name : Text} {toks : List Text}
    {salts : Nat → Nat → Salt} (hsplit : l.splitOn SPACE = name :: toks)
    (hafter : ∀ l ∈ after, (l.splitOn SPACE).head? ≠ some name)
    (h : load_lines hash_password s (before ++ l :: after) salts = .ok s') :
    ∃ u₀ u salts', apply_tokens hash_password name u₀ toks salts' = .ok u ∧
      s'.users[name]? = some u := by
  induction before generalizing s salts with
  | nil =>
      rw [List.nil_append, load_lines, hsplit] at h
      dsimp only at h
      split at h
      · cases h
      · next s₁ hset =>
          obtain ⟨u, hu, rfl⟩ := set_user_cases hset
          refine ⟨_, u, _, hu, ?_⟩
          rw [load_lines_other hafter h, getElem?_users_insert, if_pos rfl]
  | cons b before ih =>
      rw [List.cons_append, load_lines] at h
      split at h
      · cases h
      · split at h
        · cases h
        · exact ih h

end Load

/-! ## The line of one user -/

section Line

variable {hash_password : Text → Salt → Hash} {to_lowercase : Text → Text}

/-- The rule that the description of a rule makes. -/
def Rule.reparse (to_lowercase : Text → Text) : Rule → Except Text Rule
  | .AllowCmd c => parse_rule (to_lowercase c) true
  | .DenyCmd c => parse_rule (to_lowercase c) false
  | .AllowCat c => .ok (.AllowCat c)
  | .DenyCat c => .ok (.DenyCat c)

theorem parse_rule_category (c : PermCategory) (allow : Bool) :
    parse_rule (0x40 :: c.name) allow = .ok (if allow then .AllowCat c else .DenyCat c) := by
  simp only [parse_rule, PermCategory.from_str_name]

theorem parse_rule_command
    {rest : Text} (hne : rest ≠ []) (hhead : rest.head? ≠ some 0x40) (allow : Bool) :
    parse_rule rest allow = .ok (Rule.command allow (Text.to_ascii_uppercase rest)) := by
  cases rest with
  | nil => exact absurd rfl hne
  | cons b t =>
      have hb : b ≠ 0x40 := by
        rintro rfl
        exact hhead rfl
      unfold parse_rule
      split
      · next heq => exact absurd (List.cons.inj heq).1 hb
      · next heq => cases heq
      · cases allow <;> rfl

theorem apply_token_describe (username : Text) (u : User) (r : Rule) (salt : Salt) :
    apply_token hash_password username u (r.describe to_lowercase) salt =
      (r.reparse to_lowercase).map fun r' => { u with rules := u.rules ++ [r'] } := by
  cases r with
  | AllowCmd c => exact apply_token_mark (by decide) username u _ salt
  | DenyCmd c => exact apply_token_mark (by decide) username u _ salt
  | AllowCat c =>
      have h := @apply_token_mark hash_password 0x2b (by decide) username u (0x40 :: c.name) salt
      rw [apply_modifier, parse_rule_category] at h
      exact h
  | DenyCat c =>
      have h := @apply_token_mark hash_password 0x2d (by decide) username u (0x40 :: c.name) salt
      rw [apply_modifier, parse_rule_category] at h
      exact h

/-- A rule comes back exactly when upper case gives its command back. -/
theorem reparse_eq_iff {r : Rule} (h : r.Formed) :
    r.reparse to_lowercase = .ok r ↔ r.SameCase to_lowercase := by
  have hcommand : ∀ (c : Text) (allow : Bool), c ≠ [] ∧ c.head? ≠ some 0x40 →
      (parse_rule (to_lowercase c) allow = .ok (Rule.command allow c) ↔
        Text.to_ascii_uppercase (to_lowercase c) = c) := by
    intro c allow hc
    constructor
    · intro hparse
      rcases parse_rule_cases hparse with ⟨d, hd⟩ | ⟨_, _, heq⟩
      · cases allow <;> simp [Rule.command] at hd
      · cases allow
        · exact (Rule.DenyCmd.inj heq).symm
        · exact (Rule.AllowCmd.inj heq).symm
    · intro hcase
      have hlower : to_lowercase c ≠ [] ∧ (to_lowercase c).head? ≠ some 0x40 := by
        cases hl : to_lowercase c with
        | nil =>
            rw [hl] at hcase
            exact absurd hcase.symm hc.1
        | cons b t =>
            refine ⟨by simp, ?_⟩
            rw [hl, uppercase_cons] at hcase
            rw [← hcase] at hc
            have hhead := hc.2
            rw [List.head?_cons, ne_eq, Option.some.injEq, uppercase_eq_iff (by decide)] at hhead
            simpa using hhead
      rw [parse_rule_command hlower.1 hlower.2, hcase]
  cases r with
  | AllowCmd c => exact hcommand c true h
  | DenyCmd c => exact hcommand c false h
  | AllowCat c => exact ⟨fun _ => trivial, fun _ => rfl⟩
  | DenyCat c => exact ⟨fun _ => trivial, fun _ => rfl⟩

/-- The rules that the descriptions of a list of rules make. -/
def reparseAll (to_lowercase : Text → Text) : List Rule → Except Text (List Rule)
  | [] => .ok []
  | r :: rs =>
      match r.reparse to_lowercase with
      | .error e => .error e
      | .ok r' => (reparseAll to_lowercase rs).map fun rs' => r' :: rs'

theorem reparseAll_eq_iff (rs : List Rule) :
    reparseAll to_lowercase rs = .ok rs ↔ ∀ r ∈ rs, r.reparse to_lowercase = .ok r := by
  induction rs with
  | nil => simp [reparseAll]
  | cons r rs ih =>
      rw [List.forall_mem_cons, ← ih, reparseAll]
      cases r.reparse to_lowercase with
      | error e => simp
      | ok r' =>
          cases reparseAll to_lowercase rs with
          | error e => simp [Except.map]
          | ok rs' => simp [Except.map]

theorem apply_tokens_rules (username : Text) (u : User) (rs : List Rule) (salts : Nat → Salt) :
    apply_tokens hash_password username u (rs.map (Rule.describe to_lowercase)) salts =
      (reparseAll to_lowercase rs).map fun rs' => { u with rules := u.rules ++ rs' } := by
  induction rs generalizing u salts with
  | nil => simp [apply_tokens, reparseAll, Except.map]
  | cons r rs ih =>
      rw [List.map_cons, apply_tokens, apply_token_describe, reparseAll]
      cases r.reparse to_lowercase with
      | error e => rfl
      | ok r' =>
          simp only [Except.map, ih]
          cases reparseAll to_lowercase rs with
          | error e => rfl
          | ok rs' => simp

theorem apply_tokens_patterns
    (username : Text) (u : User) (ps : List Bytes) (rest : List Text) (salts : Nat → Salt) :
    ∃ salts', apply_tokens hash_password username u (ps.map (fun p => 0x7e :: p) ++ rest) salts =
      apply_tokens hash_password username { u with key_patterns := u.key_patterns ++ ps } rest
        salts' := by
  induction ps generalizing u salts with
  | nil => exact ⟨salts, by simp⟩
  | cons p ps ih =>
      obtain ⟨salts', h⟩ := ih { u with key_patterns := u.key_patterns ++ [p] } fun i => salts (i + 1)
      refine ⟨salts', ?_⟩
      rw [List.map_cons, List.cons_append, apply_tokens, apply_token_pattern]
      simp only [h, List.append_assoc, List.cons_append, List.nil_append]

/-- The tokens behind the name in the line of a user. -/
def User.tokens (to_lowercase : Text → Text) (u : User) : List Text :=
  utf8 "reset" :: passwordToken u.password :: (if u.enabled then utf8 "on" else utf8 "off") ::
    (u.key_patterns.map (fun p => 0x7e :: p) ++ u.rules.map (Rule.describe to_lowercase))

/-- The tokens of a user make it again, with its rules as they are read back. -/
theorem apply_line (u₀ u : User) (salts : Nat → Salt) :
    apply_tokens hash_password u.name u₀ (u.tokens to_lowercase) salts =
      (reparseAll to_lowercase u.rules).map fun rs => { u with rules := rs } := by
  obtain ⟨salts', h⟩ := @apply_tokens_patterns hash_password u.name
    { User.new_restricted u.name with password := u.password, enabled := u.enabled }
    u.key_patterns (u.rules.map (Rule.describe to_lowercase)) fun i => salts (i + 1 + 1 + 1)
  rw [User.tokens, apply_tokens, apply_token_reset]
  dsimp only
  rw [apply_tokens, apply_token_password]
  dsimp only
  rw [apply_tokens, apply_token_enabled]
  dsimp only
  rw [h, apply_tokens_rules]
  rfl

/-- Lower case leaves everything but letters, as upper case does. -/
def KeepsMarks (to_lowercase : Text → Text) : Prop :=
  ∀ t : Text, ∀ b : UInt8, b < 0x41 → (to_lowercase t).count b = t.count b

theorem plain_lower (h : KeepsMarks to_lowercase) {t : Text} : Plain (to_lowercase t) ↔ Plain t := by
  simp only [Plain, ← List.count_eq_zero, h t SPACE (by decide), h t NEWLINE (by decide)]

theorem plain_category (c : PermCategory) : Plain c.name ∧ RETURN ∉ c.name := by
  cases c <;> decide +kernel

theorem plain_describe (h : KeepsMarks to_lowercase) {r : Rule} (hr : r.Plain) :
    Plain (r.describe to_lowercase) := by
  cases r with
  | AllowCmd c => exact plain_cons.mpr ⟨by decide, by decide, (plain_lower h).mpr hr⟩
  | DenyCmd c => exact plain_cons.mpr ⟨by decide, by decide, (plain_lower h).mpr hr⟩
  | AllowCat c =>
      exact plain_cons.mpr ⟨by decide, by decide,
        plain_cons.mpr ⟨by decide, by decide, (plain_category c).1⟩⟩
  | DenyCat c =>
      exact plain_cons.mpr ⟨by decide, by decide,
        plain_cons.mpr ⟨by decide, by decide, (plain_category c).1⟩⟩

theorem returns_describe (h : KeepsMarks to_lowercase) (r : Rule) :
    (r.describe to_lowercase).count RETURN = r.returns := by
  cases r with
  | AllowCmd c =>
      rw [Rule.describe, List.count_cons_of_ne (by decide), h c RETURN (by decide)]
      rfl
  | DenyCmd c =>
      rw [Rule.describe, List.count_cons_of_ne (by decide), h c RETURN (by decide)]
      rfl
  | AllowCat c =>
      rw [Rule.describe, List.count_cons_of_ne (by decide), List.count_cons_of_ne (by decide)]
      exact List.count_eq_zero.mpr (plain_category c).2
  | DenyCat c =>
      rw [Rule.describe, List.count_cons_of_ne (by decide), List.count_cons_of_ne (by decide)]
      exact List.count_eq_zero.mpr (plain_category c).2

theorem plain_passwordToken (p : Option (Salt × Hash)) :
    Plain (passwordToken p) ∧ RETURN ∉ passwordToken p := by
  cases p with
  | none => exact keyword_plain (by simp [keywords, passwordToken])
  | some p =>
      obtain ⟨s, h⟩ := p
      have hnot : ∀ c, hexValue c = none → c ≠ 0x23 → c ≠ COLON →
          c ∉ passwordToken (some (s, h)) := by
        intro c hc hmark hcolon
        simp only [passwordToken, List.mem_cons, List.mem_append, List.not_mem_nil, or_false, not_or]
        exact ⟨hmark, ⟨not_mem_hex_encode hc s.1, hcolon⟩, not_mem_hex_encode hc h.1⟩
      exact ⟨⟨hnot _ (by decide) (by decide) (by decide), hnot _ (by decide) (by decide) (by decide)⟩,
        hnot _ (by decide) (by decide) (by decide)⟩

theorem plain_switch (u : User) :
    Plain (if u.enabled then utf8 "on" else utf8 "off") ∧
      RETURN ∉ (if u.enabled then utf8 "on" else utf8 "off") := by
  split <;> exact keyword_plain (by simp [keywords])

theorem plain_tokens (h : KeepsMarks to_lowercase) {u : User} (hu : u.Plain) :
    ∀ t ∈ u.name :: u.tokens to_lowercase, Plain t := by
  simp only [User.tokens, List.forall_mem_cons]
  refine ⟨hu.name, (keyword_plain (by simp [keywords])).1, (plain_passwordToken u.password).1,
    (plain_switch u).1, ?_⟩
  intro t ht
  rcases List.mem_append.mp ht with ht | ht
  · obtain ⟨p, hp, rfl⟩ := List.mem_map.mp ht
    exact plain_cons.mpr ⟨by decide, by decide, hu.patterns p hp⟩
  · obtain ⟨r, hr, rfl⟩ := List.mem_map.mp ht
    exact plain_describe h (hu.rules r hr)

/-- The carriage returns in a line are those of the name, the patterns and the commands. -/
theorem returns_tokens (h : KeepsMarks to_lowercase) (u : User) :
    ((u.tokens to_lowercase).map (·.count RETURN)).sum = u.returns := by
  have hreset : (utf8 "reset").count RETURN = 0 :=
    List.count_eq_zero.mpr (keyword_plain (by simp [keywords])).2
  have hpassword : (passwordToken u.password).count RETURN = 0 :=
    List.count_eq_zero.mpr (plain_passwordToken u.password).2
  have hswitch : (if u.enabled then utf8 "on" else utf8 "off").count RETURN = 0 :=
    List.count_eq_zero.mpr (plain_switch u).2
  have hpatterns : (u.key_patterns.map (fun p => 0x7e :: p)).map (·.count RETURN) =
      u.key_patterns.map (·.count RETURN) := by
    rw [List.map_map]
    refine List.map_congr_left ?_
    intro p _
    exact List.count_cons_of_ne (by decide)
  have hrules : (u.rules.map (Rule.describe to_lowercase)).map (·.count RETURN) =
      u.rules.map Rule.returns := by
    rw [List.map_map]
    exact List.map_congr_left fun r _ => returns_describe h r
  rw [User.tokens, List.map_cons, List.map_cons, List.map_cons, List.map_append, hpatterns, hrules,
    List.sum_cons, List.sum_cons, List.sum_cons, List.sum_append, hreset, hpassword, hswitch,
    User.returns]
  omega

/-- The line of a plain user is its name and its tokens, with spaces between them. -/
theorem line_eq (h : KeepsMarks to_lowercase) {name : Text} {u : User} (hf : u.Formed name)
    (hu : u.Plain) :
    u.line to_lowercase = [SPACE].intercalate (u.name :: u.tokens to_lowercase) := by
  have hpatterns : u.key_patterns.map (fun p => 0x7e :: Text.from_utf8_lossy p) =
      u.key_patterns.map (fun p => 0x7e :: p) := by
    refine List.map_congr_left ?_
    intro p hp
    rw [hf.patterns p hp]
  have htail : ∀ t ∈ u.key_patterns.map (fun p => 0x7e :: p) ++
      u.rules.map (Rule.describe to_lowercase), Plain t ∧ t ≠ utf8 "nopass" := by
    intro t ht
    refine ⟨plain_tokens h hu t ?_, ?_⟩
    · simp only [User.tokens, List.mem_cons]
      exact Or.inr (Or.inr (Or.inr (Or.inr ht)))
    · have hhead : ∃ b ∈ marks, t.head? = some b := by
        rcases List.mem_append.mp ht with ht | ht
        · obtain ⟨p, _, rfl⟩ := List.mem_map.mp ht
          simp [marks]
        · obtain ⟨r, _, rfl⟩ := List.mem_map.mp ht
          cases r <;> simp [Rule.describe, marks]
      rintro rfl
      obtain ⟨b, hb, heq⟩ := hhead
      exact keyword_head (by simp [keywords]) hb heq
  have hparts : u.parts to_lowercase = [if u.enabled then utf8 "on" else utf8 "off"] ++
      ((if u.password.isNone then [utf8 "nopass"] else []) ++
        (u.key_patterns.map (fun p => 0x7e :: p) ++ u.rules.map (Rule.describe to_lowercase))) := by
    rw [User.parts, hpatterns]
    simp only [List.append_assoc]
  have hswitch : Plain (if u.enabled then utf8 "on" else utf8 "off") ∧
      (if u.enabled then utf8 "on" else utf8 "off") ≠ utf8 "nopass" := by
    obtain ⟨-, hon, hoff⟩ := spelling.2.2.2.1
    refine ⟨(plain_switch u).1, ?_⟩
    split
    · exact hon.symm
    · exact hoff.symm
  have hplain : ∀ t ∈ u.parts to_lowercase, SPACE ∉ t := by
    intro t ht
    rw [hparts] at ht
    rcases List.mem_append.mp ht with ht | ht
    · rw [List.mem_singleton.mp ht]
      exact hswitch.1.1
    · rcases List.mem_append.mp ht with ht | ht
      · split at ht
        · rw [List.mem_singleton.mp ht]
          exact (keyword_plain (by simp [keywords])).1.1
        · cases ht
      · exact (htail t ht).1.1
  have hne : u.parts to_lowercase ≠ [] := by
    rw [hparts]
    simp
  have hfilter : (u.parts to_lowercase).filter (· ≠ utf8 "nopass") =
      (if u.enabled then utf8 "on" else utf8 "off") ::
        (u.key_patterns.map (fun p => 0x7e :: p) ++ u.rules.map (Rule.describe to_lowercase)) := by
    have hnopass : (if u.password.isNone then [utf8 "nopass"] else []).filter
        (fun t => decide (t ≠ utf8 "nopass")) = [] := by
      split <;> simp
    have hkeep : (u.key_patterns.map (fun p => 0x7e :: p) ++
        u.rules.map (Rule.describe to_lowercase)).filter (fun t => decide (t ≠ utf8 "nopass")) =
        u.key_patterns.map (fun p => 0x7e :: p) ++ u.rules.map (Rule.describe to_lowercase) :=
      List.filter_eq_self.mpr fun t ht => decide_eq_true (htail t ht).2
    rw [hparts, List.filter_append, List.filter_append, hnopass, hkeep, List.filter_singleton,
      decide_eq_true hswitch.2]
    rfl
  rw [User.line, User.describe, List.splitOn_intercalate SPACE hplain hne, hfilter]
  rfl

theorem splitOn_line (h : KeepsMarks to_lowercase) {name : Text} {u : User} (hf : u.Formed name)
    (hu : u.Plain) :
    (u.line to_lowercase).splitOn SPACE = u.name :: u.tokens to_lowercase := by
  rw [line_eq h hf hu]
  exact List.splitOn_intercalate SPACE (fun t ht => (plain_tokens h hu t ht).1) (by simp)

theorem intercalate_concat {ts : List Text} (hne : ts ≠ []) (t : Text) :
    [SPACE].intercalate (ts ++ [t]) = [SPACE].intercalate ts ++ SPACE :: t := by
  induction ts with
  | nil => exact absurd rfl hne
  | cons a ts ih =>
      cases ts with
      | nil => simp [List.intercalate]
      | cons b ts =>
          have hrest := ih (by simp)
          simp only [List.intercalate, List.cons_append, List.intersperse_cons_cons, List.flatten_cons]
            at hrest ⊢
          rw [hrest]
          simp

/-- The last of a list of tokens loses its last character. -/
theorem intercalate_dropLast
    {ts : List Text} (hne : ts ≠ []) {t : Text} (ht : t ≠ []) :
    ([SPACE].intercalate (ts ++ [t])).dropLast = [SPACE].intercalate (ts ++ [t.dropLast]) := by
  rw [intercalate_concat hne, intercalate_concat hne,
    List.dropLast_append_of_ne_nil (List.cons_ne_nil _ _), List.dropLast_cons_of_ne_nil ht]

/-- A line that loses a carriage return: its last token loses one. -/
theorem splitOn_stripped
    (h : KeepsMarks to_lowercase) {name : Text} {u : User} (hf : u.Formed name) (hu : u.Plain)
    (hend : (u.line to_lowercase).getLast? = some RETURN) :
    ∃ ts, (stripReturn (u.line to_lowercase)).splitOn SPACE = u.name :: utf8 "reset" :: ts ∧
      (ts.map (·.count RETURN)).sum + 1 = u.returns := by
  have hplain := plain_tokens h hu
  have hsum := returns_tokens h u
  rw [stripReturn, if_pos hend, line_eq h hf hu]
  rw [line_eq h hf hu] at hend
  obtain ⟨rest, hrest⟩ : ∃ rest, u.tokens to_lowercase = utf8 "reset" :: rest ∧ rest ≠ [] :=
    ⟨_, rfl, by simp⟩
  obtain ⟨front, t, rfl⟩ := (List.eq_nil_or_concat rest).resolve_left hrest.2
  rw [List.concat_eq_append] at hrest
  rw [hrest.1] at hplain hsum hend ⊢
  have hshape : u.name :: utf8 "reset" :: (front ++ [t]) =
      (u.name :: utf8 "reset" :: front) ++ [t] := rfl
  rw [hshape, intercalate_concat (by simp)] at hend
  have ht : t ≠ [] := by
    rintro rfl
    rw [List.getLast?_concat] at hend
    revert hend
    decide
  have hlast : t.getLast? = some RETURN := by
    rw [List.getLast?_append_of_ne_nil _ (List.cons_ne_nil _ _), List.getLast?_cons] at hend
    obtain ⟨x, hx⟩ := Option.isSome_iff_exists.mp (List.getLast?_isSome.mpr ht)
    rw [hx] at hend ⊢
    simpa using hend
  refine ⟨front ++ [t.dropLast], ?_, ?_⟩
  · rw [hshape, intercalate_dropLast (by simp) ht, List.splitOn_intercalate SPACE ?_ (by simp)]
    · rfl
    · intro l hl
      rcases List.mem_append.mp hl with hl | hl
      · exact (hplain l (by rw [hshape]; exact List.mem_append_left _ hl)).1
      · rw [List.mem_singleton.mp hl]
        intro hmem
        exact (hplain t (by rw [hshape]; simp)).1 (List.mem_of_mem_dropLast hmem)
  · have hcount : t.dropLast.count RETURN + 1 = t.count RETURN := by
      conv_rhs => rw [← List.dropLast_append_getLast? RETURN hlast]
      rw [List.count_append, List.count_singleton_self]
    have hreset : (utf8 "reset").count RETURN = 0 :=
      List.count_eq_zero.mpr (keyword_plain (by simp [keywords])).2
    rw [← hsum]
    simp only [List.map_cons, List.map_append, List.map_nil, List.sum_cons, List.sum_append,
      List.sum_nil, hreset]
    omega

/-- Stripped or not, a line is for its user. -/
theorem head?_splitOn
    (h : KeepsMarks to_lowercase) {name : Text} {u : User} (hf : u.Formed name) (hu : u.Plain)
    {l : Text} (hl : l = u.line to_lowercase ∨ l = stripReturn (u.line to_lowercase)) :
    (l.splitOn SPACE).head? = some u.name := by
  by_cases hend : (u.line to_lowercase).getLast? = some RETURN
  · rcases hl with rfl | rfl
    · rw [splitOn_line h hf hu]
      rfl
    · obtain ⟨ts, hts, _⟩ := splitOn_stripped h hf hu hend
      rw [hts]
      rfl
  · have heq : l = u.line to_lowercase := by
      rcases hl with rfl | rfl
      · rfl
      · rw [stripReturn, if_neg hend]
    rw [heq, splitOn_line h hf hu]
    rfl

end Line

end Acl
end StrikeDB
