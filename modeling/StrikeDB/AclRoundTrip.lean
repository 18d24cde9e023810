import StrikeDB.AclLines
import StrikeDB.SortedPairs

/-!
# StrikeDB: the table of users, saved and loaded

The text form separates tokens by spaces and users by line ends, and escapes neither.  So a
table comes back as it was exactly when it is `Separable`.

* `load_lines_of_separable`: loading the lines of separable users puts them into the table.
* `dump_load_faithful`: the equivalence.
* `reload_grants_all`: a key pattern with a space in it becomes two tokens, and grants.
-/

namespace StrikeDB
namespace Acl

/-! ## The whole text -/

section Whole

variable {hash_password : Text → Salt → Hash} {to_lowercase : Text → Text}

/-- The users in the order of their lines. -/
def AclStore.sorted (to_lowercase : Text → Text) (s : AclStore) : List User :=
  (s.users.toList.map Prod.snd).mergeSort fun u v =>
    (compare (u.line to_lowercase) (v.line to_lowercase)).isLE

theorem lines_eq (s : AclStore) :
    s.lines to_lowercase = (s.sorted to_lowercase).map (User.line to_lowercase) := by
  have hmap := List.map_mergeSort (f := User.line to_lowercase) (l := s.users.toList.map Prod.snd)
    (r := fun u v => (compare (u.line to_lowercase) (v.line to_lowercase)).isLE)
    (s := fun a b => (compare a b).isLE) (fun _ _ _ _ => rfl)
  rw [AclStore.sorted, hmap, List.map_map]
  rfl

theorem mem_sorted {s : AclStore} (hs : Formed s) (u : User) :
    u ∈ s.sorted to_lowercase ↔ s.users[u.name]? = some u := by
  rw [AclStore.sorted, List.mem_mergeSort, List.mem_map]
  constructor
  · rintro ⟨⟨name, v⟩, hmem, rfl⟩
    rw [Std.ExtTreeMap.mem_toList_iff_getElem?_eq_some] at hmem
    rwa [(hs.users name v hmem).name_eq]
  · intro hget
    exact ⟨(u.name, u), Std.ExtTreeMap.mem_toList_iff_getElem?_eq_some.mpr hget, rfl⟩

/-- Different users have different names. -/
theorem nodup_sorted {s : AclStore} (hs : Formed s) :
    ((s.sorted to_lowercase).map User.name).Nodup := by
  have hperm : ((s.sorted to_lowercase).map User.name).Perm (s.users.toList.map Prod.fst) := by
    have hnames : s.users.toList.map Prod.fst = (s.users.toList.map Prod.snd).map User.name := by
      rw [List.map_map]
      refine List.map_congr_left ?_
      intro e he
      rw [Std.ExtTreeMap.mem_toList_iff_getElem?_eq_some] at he
      exact (hs.users e.1 e.2 he).name_eq.symm
    rw [hnames]
    exact (List.mergeSort_perm _ _).map _
  rw [hperm.nodup_iff, List.nodup_iff_pairwise_ne, List.pairwise_map]
  refine (keySorted_toList s.users).imp ?_
  intro e e' hlt heq
  have hself : compare e.1 e'.1 = .lt := hlt
  rw [heq] at hself
  simp at hself

theorem not_mem_textLines {t l : Text} (h : l ∈ textLines t) : NEWLINE ∉ l := by
  rw [textLines, List.mem_append] at h
  rcases h with h | h
  · obtain ⟨p, hp, rfl⟩ := List.mem_map.mp h
    have hnot := (mem_splitOn (List.mem_of_mem_dropLast hp)).1
    unfold stripReturn
    split
    · exact fun hmem => hnot (List.mem_of_mem_dropLast hmem)
    · exact hnot
  · split at h
    · cases h
    · exact (mem_splitOn (List.mem_of_getLast? (Option.mem_toList.mp h))).1

/-- Lines come back, those before the last without a carriage return at their end. -/
theorem textLines_intercalate
    {ls : List Text} {l : Text} (hls : ∀ x ∈ ls ++ [l], NEWLINE ∉ x) (hl : l ≠ []) :
    textLines ([NEWLINE].intercalate (ls ++ [l])) = ls.map stripReturn ++ [l] := by
  rw [textLines, List.splitOn_intercalate NEWLINE hls (by simp), List.dropLast_concat,
    List.getLast?_concat, if_neg (by simpa using hl)]
  rfl

theorem not_blank {l : Text} (h : 0x72 ∈ l) : isBlank l = false := by
  have hall : ∀ t : Text, isBlank t = true → 0x72 ∉ t := by
    intro t ht
    fun_induction isBlank t with
    | case1 => simp
    | case2 t ih => simp [ih ht]
    | case3 t ih => simp [ih ht]
    | case4 t ih => simp [ih ht]
    | case5 c t ih =>
        rw [Bool.and_eq_true] at ht
        have hc : c ≠ 0x72 := by
          rintro rfl
          exact absurd ht.1 (by decide)
        simp [ih ht.2, hc.symm]
    | case6 t ih => simp [ih ht]
    | case7 t ih => simp [ih ht]
    | case8 b t _ _ _ _ _ _ ih =>
        rw [Bool.and_eq_true] at ht
        have hb : b ≠ 0x72 := by
          rintro rfl
          exact absurd ht.1 (by decide)
        simp [ih ht.2, hb.symm]
  cases hb : isBlank l with
  | false => rfl
  | true => exact absurd h (hall l hb)

theorem mem_intercalate {sep b : UInt8} {ls : List Text} (h : b ∈ [sep].intercalate ls) :
    b = sep ∨ ∃ l ∈ ls, b ∈ l := by
  induction ls with
  | nil => simp [List.intercalate] at h
  | cons l ls ih =>
      cases ls with
      | nil => exact Or.inr ⟨l, by simp, by simpa [List.intercalate] using h⟩
      | cons l' ls =>
          have hcons : [sep].intercalate (l :: l' :: ls) =
              l ++ sep :: [sep].intercalate (l' :: ls) := by simp [List.intercalate]
          rw [hcons, List.mem_append, List.mem_cons] at h
          rcases h with h | h | h
          · exact Or.inr ⟨l, by simp, h⟩
          · exact Or.inl h
          · rcases ih h with h | ⟨x, hx, hb⟩
            · exact Or.inl h
            · exact Or.inr ⟨x, List.mem_cons_of_mem _ hx, hb⟩

/-- Every line says `reset`. -/
theorem mem_line (u : User) : 0x72 ∈ u.line to_lowercase := by
  have hreset : utf8 "reset" = 0x72 :: (utf8 "reset").tail := by decide +kernel
  rw [User.line, List.cons_append, List.cons_append, hreset]
  simp [List.intercalate]

theorem mem_stripReturn {l : Text} (h : 0x72 ∈ l) : 0x72 ∈ stripReturn l := by
  unfold stripReturn
  split
  · next hend =>
      rw [← List.dropLast_append_getLast? RETURN hend, List.mem_append] at h
      exact h.resolve_right (by decide)
  · exact h

theorem line_ne_nil (u : User) : u.line to_lowercase ≠ [] := List.ne_nil_of_mem (mem_line u)

/-- What is read of a text whose users are these: the last line is whole. -/
def readLines (to_lowercase : Text → Text) : List User → List Text
  | [] => []
  | [u] => [u.line to_lowercase]
  | u :: v :: us => stripReturn (u.line to_lowercase) :: readLines to_lowercase (v :: us)

theorem readLines_concat (us : List User) (u : User) :
    readLines to_lowercase (us ++ [u]) =
      (us.map (User.line to_lowercase)).map stripReturn ++ [u.line to_lowercase] := by
  induction us with
  | nil => rfl
  | cons v us ih =>
      cases us with
      | nil => rfl
      | cons w us =>
          rw [List.cons_append, List.cons_append, readLines]
          rw [List.cons_append] at ih
          rw [ih]
          rfl

/-- The lines that a dump is loaded from. -/
theorem dump_lines
    (h : KeepsMarks to_lowercase) {s : AclStore} (hs : Formed s)
    (hplain : ∀ (name : Text) (u : User), s.users[name]? = some u → u.Plain) :
    (textLines (dump to_lowercase s)).filter (fun l => !isBlank l) =
      readLines to_lowercase (s.sorted to_lowercase) := by
  obtain ⟨u, hu⟩ := Option.isSome_iff_exists.mp hs.default
  have hne : s.sorted to_lowercase ≠ [] := by
    refine List.ne_nil_of_mem ((mem_sorted hs u).mpr ?_)
    rwa [(hs.users _ u hu).name_eq]
  obtain ⟨us, v, hsorted⟩ := (List.eq_nil_or_concat (s.sorted to_lowercase)).resolve_left hne
  rw [List.concat_eq_append] at hsorted
  have hall : ∀ w ∈ us ++ [v], NEWLINE ∉ w.line to_lowercase := by
    intro w hw
    have hget := (mem_sorted hs w).mp (hsorted ▸ hw)
    rw [line_eq h (hs.users _ w hget) (hplain _ w hget)]
    intro hmem
    rcases mem_intercalate hmem with heq | ⟨t, ht, hmem⟩
    · revert heq
      decide
    · exact (plain_tokens h (hplain _ w hget) t ht).2 hmem
  have htext : textLines (dump to_lowercase s) = readLines to_lowercase (s.sorted to_lowercase) := by
    rw [dump, lines_eq, hsorted, List.map_append, List.map_singleton, readLines_concat]
    refine textLines_intercalate ?_ (line_ne_nil v)
    intro l hl
    rw [← List.map_singleton, ← List.map_append] at hl
    obtain ⟨w, hw, rfl⟩ := List.mem_map.mp hl
    exact hall w hw
  rw [htext, List.filter_eq_self, hsorted, readLines_concat]
  intro l hl
  have hr : 0x72 ∈ l := by
    rcases List.mem_append.mp hl with hl | hl
    · rw [List.map_map] at hl
      obtain ⟨w, _, rfl⟩ := List.mem_map.mp hl
      exact mem_stripReturn (mem_line w)
    · rw [List.mem_singleton.mp hl]
      exact mem_line v
  rw [not_blank hr]
  rfl

/-- One line of a text is that of its user. -/
theorem readLines_mem
    {us : List User} {l : Text} (h : l ∈ readLines to_lowercase us) :
    ∃ u ∈ us, l = u.line to_lowercase ∨ l = stripReturn (u.line to_lowercase) := by
  induction us with
  | nil => cases h
  | cons u us ih =>
      cases us with
      | nil =>
          rw [readLines, List.mem_singleton] at h
          exact ⟨u, by simp, Or.inl h⟩
      | cons v us =>
          rw [readLines, List.mem_cons] at h
          rcases h with rfl | h
          · exact ⟨u, by simp, Or.inr rfl⟩
          · obtain ⟨w, hw, hl⟩ := ih h
            exact ⟨w, List.mem_cons_of_mem _ hw, hl⟩

theorem readLines_split (before after : List User) (u : User) :
    ∃ first, readLines to_lowercase (before ++ u :: after) =
      first ++ readLines to_lowercase (u :: after) := by
  induction before with
  | nil => exact ⟨[], rfl⟩
  | cons v before ih =>
      obtain ⟨first, hfirst⟩ := ih
      refine ⟨stripReturn (v.line to_lowercase) :: first, ?_⟩
      rw [List.cons_append, List.cons_append, ← hfirst]
      cases before with
      | nil => rfl
      | cons w before => rfl

/-- The line of one user, and the lines behind it. -/
theorem readLines_cons (u : User) (after : List User) :
    readLines to_lowercase (u :: after) =
      (if after = [] then u.line to_lowercase else stripReturn (u.line to_lowercase)) ::
        readLines to_lowercase after := by
  cases after with
  | nil => rfl
  | cons v after => rfl

/-- What loading a dump makes of one of its users. -/
theorem loaded_user
    (h : KeepsMarks to_lowercase) {s : AclStore} (hs : Formed s)
    (hplain : ∀ (name : Text) (u : User), s.users[name]? = some u → u.Plain)
    {s₀ s' : AclStore} {salts : Nat → Nat → Salt}
    (hload : load_lines hash_password s₀ (readLines to_lowercase (s.sorted to_lowercase)) salts =
      .ok s')
    {before after : List User} {u : User} (hsorted : s.sorted to_lowercase = before ++ u :: after)
    {toks : List Text}
    (htoks : (if after = [] then u.line to_lowercase
      else stripReturn (u.line to_lowercase)).splitOn SPACE = u.name :: toks) :
    ∃ u₀ u' salts', apply_tokens hash_password u.name u₀ toks salts' = .ok u' ∧
      s'.users[u.name]? = some u' := by
  obtain ⟨first, hfirst⟩ := readLines_split before after u
  rw [hsorted, hfirst, readLines_cons] at hload
  refine load_lines_user htoks ?_ hload
  intro l hl
  obtain ⟨v, hv, hline⟩ := readLines_mem hl
  have hget := (mem_sorted hs v).mp (by rw [hsorted]; simp [hv])
  rw [head?_splitOn h (hs.users _ v hget) (hplain _ v hget) hline, ne_eq, Option.some.injEq]
  have hnodup := @nodup_sorted to_lowercase s hs
  rw [hsorted, List.map_append, List.map_cons] at hnodup
  have hnot := (List.nodup_cons.mp (List.nodup_append.mp hnodup).2.1).1
  intro heq
  exact hnot (heq ▸ List.mem_map_of_mem hv)

/-- A table that comes back can be told from its text. -/
theorem separable_of_load
    (h : KeepsMarks to_lowercase) {s : AclStore} (hs : Formed s)
    {s₀ s' : AclStore} (hempty : s₀.users = ∅) {salts : Nat → Nat → Salt}
    (hload : load_lines hash_password s₀
      ((textLines (dump to_lowercase s)).filter fun l => !isBlank l) salts = .ok s')
    (hsame : s'.users = s.users) : Separable to_lowercase s := by
  have hplain : ∀ (name : Text) (u : User), s.users[name]? = some u → u.Plain := by
    rw [← hsame]
    refine plain_load_lines ?_ ?_ hload
    · intro l hl
      exact not_mem_textLines (List.mem_filter.mp hl).1
    · intro name u hu
      rw [hempty] at hu
      simp at hu
  rw [dump_lines h hs hplain] at hload
  have hreturn : ∀ (before after : List User) (u : User),
      s.sorted to_lowercase = before ++ u :: after → after ≠ [] →
      (u.line to_lowercase).getLast? ≠ some RETURN := by
    intro before after u hsorted hafter hend
    have hget := (mem_sorted hs u).mp (by rw [hsorted]; simp)
    obtain ⟨ts, hts, hsum⟩ := splitOn_stripped h (hs.users _ u hget) (hplain _ u hget) hend
    obtain ⟨u₀, u', salts', happly, hu'⟩ := loaded_user h hs hplain hload hsorted
      (by rw [if_neg hafter]; exact hts)
    rw [hsame, hget, Option.some.injEq] at hu'
    rw [apply_tokens, apply_token_reset] at happly
    have hle := returns_apply_tokens happly
    rw [← hu'] at hle
    have hzero : (User.new_restricted u.name).returns = 0 := rfl
    omega
  refine ⟨hplain, ?_, ?_⟩
  · intro name u hget r hr
    have hname := (hs.users name u hget).name_eq
    rw [← hname] at hget
    obtain ⟨before, after, hsorted⟩ := List.append_of_mem
      ((mem_sorted hs u).mpr hget)
    have hline : (if after = [] then u.line to_lowercase
        else stripReturn (u.line to_lowercase)) = u.line to_lowercase := by
      split
      · rfl
      · next hafter => rw [stripReturn, if_neg (hreturn before after u hsorted hafter)]
    obtain ⟨u₀, u', salts', happly, hu'⟩ := loaded_user h hs hplain hload hsorted
      (by rw [hline]; exact splitOn_line h (hs.users _ u hget) (hplain _ u hget))
    rw [hsame, hget, Option.some.injEq] at hu'
    rw [apply_line, ← hu'] at happly
    have hall : reparseAll to_lowercase u.rules = .ok u.rules := by
      cases hrules : reparseAll to_lowercase u.rules with
      | error e =>
          rw [hrules] at happly
          cases happly
      | ok rs =>
          rw [hrules] at happly
          have hu := Except.ok.inj happly
          exact congrArg Except.ok (congrArg User.rules hu)
    exact (reparse_eq_iff ((hs.users _ u hget).rules r hr)).mp ((reparseAll_eq_iff _).mp hall r hr)
  · intro l hl
    rw [lines_eq, ← List.map_dropLast] at hl
    obtain ⟨u, hu, rfl⟩ := List.mem_map.mp hl
    obtain ⟨before, after, hsplit⟩ := List.append_of_mem hu
    have hne : s.sorted to_lowercase ≠ [] := by
      intro hnil
      rw [hnil] at hu
      cases hu
    have hsorted : s.sorted to_lowercase =
        before ++ u :: (after ++ [(s.sorted to_lowercase).getLast hne]) := by
      conv_lhs => rw [← List.dropLast_append_getLast hne, hsplit]
      simp
    exact hreturn before _ u hsorted (by simp)

/-- Loading the lines of separable users puts them into the table. -/
theorem load_lines_of_separable
    (h : KeepsMarks to_lowercase) {us : List User} (hformed : ∀ u ∈ us, u.Formed u.name)
    (hplain : ∀ u ∈ us, u.Plain) (hcase : ∀ u ∈ us, ∀ r ∈ u.rules, r.SameCase to_lowercase)
    {s : AclStore} (hstrict : s.strict = true) (salts : Nat → Nat → Salt) :
    load_lines hash_password s (us.map (User.line to_lowercase)) salts =
      .ok { s with users := us.foldl (fun m u => m.insert u.name u) s.users } := by
  induction us generalizing s salts with
  | nil => rfl
  | cons u us ih =>
      rw [List.forall_mem_cons] at hformed hplain hcase
      have hrules : reparseAll to_lowercase u.rules = .ok u.rules := (reparseAll_eq_iff _).mpr
        fun r hr => (reparse_eq_iff (hformed.1.rules r hr)).mpr (hcase.1 r hr)
      have hset : set_user hash_password s u.name (u.tokens to_lowercase) (salts 0) =
          .ok { s with users := s.users.insert u.name u } := by
        rw [set_user, apply_line, hrules]
        simp only [Except.map, hstrict]
      rw [List.map_cons, load_lines, splitOn_line h hformed.1 hplain.1]
      simp only [hset]
      exact ih hformed.2 hplain.2 hcase.2 (s := { s with users := s.users.insert u.name u }) hstrict _

theorem getElem?_foldl_insert
    {us : List User} (hnodup : (us.map User.name).Nodup) (m : Std.ExtTreeMap Text User) (k : Text) :
    (us.foldl (fun m u => m.insert u.name u) m)[k]? =
      ((us.find? fun u => u.name = k).or m[k]?) := by
  induction us generalizing m with
  | nil => rfl
  | cons u us ih =>
      rw [List.map_cons, List.nodup_cons] at hnodup
      rw [List.foldl_cons, ih hnodup.2, getElem?_users_insert]
      by_cases hk : u.name = k
      · have hnone : us.find? (fun v => v.name = k) = none := by
          rw [List.find?_eq_none]
          intro v hv hname
          rw [decide_eq_true_eq, ← hk] at hname
          exact hnodup.1 (hname ▸ List.mem_map_of_mem hv)
        rw [hnone, if_pos hk, List.find?_cons_of_pos (by simpa using hk)]
        rfl
      · rw [if_neg hk, List.find?_cons_of_neg (by simpa using hk)]

/-- The users of a table, put into an empty one, make the table. -/
theorem foldl_sorted {s : AclStore} (hs : Formed s) :
    (s.sorted to_lowercase).foldl (fun m u => m.insert u.name u) ∅ = s.users := by
  refine Std.ExtTreeMap.ext_getElem? ?_
  intro k
  rw [getElem?_foldl_insert (nodup_sorted hs)]
  cases hget : s.users[k]? with
  | none =>
      have hnone : (s.sorted to_lowercase).find? (fun u => u.name = k) = none := by
        rw [List.find?_eq_none]
        intro u hu hname
        rw [decide_eq_true_eq] at hname
        have hu' := (mem_sorted hs u).mp hu
        rw [hname, hget] at hu'
        cases hu'
      rw [hnone]
      simp
  | some u =>
      have hname := (hs.users k u hget).name_eq
      have hmem : u ∈ s.sorted to_lowercase := (mem_sorted hs u).mpr (by rw [hname]; exact hget)
      have hsome : ((s.sorted to_lowercase).find? fun v => v.name = k).isSome = true := by
        rw [List.find?_isSome]
        exact ⟨u, hmem, by simpa using hname⟩
      obtain ⟨v, hv⟩ := Option.isSome_iff_exists.mp hsome
      have hvname : v.name = k := by simpa using List.find?_some hv
      have hvget := (mem_sorted hs v).mp (List.mem_of_find?_eq_some hv)
      rw [hvname, hget, Option.some.injEq] at hvget
      rw [hv, hvget]
      rfl

/-- Lines without a carriage return at their end are read as they are. -/
theorem readLines_of_lineEnds
    {us : List User} (h : ∀ l ∈ (us.map (User.line to_lowercase)).dropLast,
      l.getLast? ≠ some RETURN) :
    readLines to_lowercase us = us.map (User.line to_lowercase) := by
  induction us with
  | nil => rfl
  | cons u us ih =>
      cases us with
      | nil => rfl
      | cons v us =>
          rw [List.map_cons, List.map_cons, List.dropLast_cons_cons, List.forall_mem_cons] at h
          rw [readLines, ih h.2, stripReturn, if_neg h.1]
          rfl

/-- Loading the text of a table gives the table exactly when it can be told from its text. -/
theorem dump_load_faithful
    (hash_password : Text → Salt → Hash) (to_lowercase : Text → Text)
    (h : KeepsMarks to_lowercase) (requirepass : Option Text) (salt : Salt) (s : AclStore)
    (hrun : Run (step hash_password) (fun _ _ => True)
      (AclStore.new hash_password requirepass salt) s) (s₀ : AclStore) (salts : Nat → Nat → Salt) :
    (∃ s' n, load hash_password s₀ (dump to_lowercase s) salts = .ok (s', n) ∧
      s'.users = s.users) ↔ Separable to_lowercase s := by
  have hs := formed_run hrun
  constructor
  · rintro ⟨s', n, hload, hsame⟩
    rw [load] at hload
    split at hload
    · cases hload
    · next staged hstaged =>
        split at hload
        · cases hload
        · cases hload
          exact separable_of_load h hs rfl hstaged hsame
  · intro hsep
    have hlines := hsep.lineEnds
    rw [lines_eq] at hlines
    have hget : ∀ u ∈ s.sorted to_lowercase, s.users[u.name]? = some u :=
      fun u hu => (mem_sorted hs u).mp hu
    have hstaged := @load_lines_of_separable hash_password to_lowercase h (s.sorted to_lowercase)
      (fun u hu => hs.users _ u (hget u hu)) (fun u hu => hsep.plain _ u (hget u hu))
      (fun u hu => hsep.sameCase _ u (hget u hu))
      { users := ∅, requirepass := s₀.requirepass, strict := true } rfl salts
    rw [← readLines_of_lineEnds hlines, ← dump_lines h hs hsep.plain, foldl_sorted hs] at hstaged
    rw [load, hstaged]
    have hdefault : ¬ (s.users[utf8 "default"]?.isNone = true) := by
      rw [Option.isNone_iff_eq_none, ← ne_eq, Option.ne_none_iff_isSome]
      exact hs.default
    simp only [if_neg hdefault]
    exact ⟨_, _, rfl, rfl⟩

end Whole

/-! ## Runs -/

def zeroHash (_ : Text) (_ : Salt) : Hash := ⟨List.replicate 32 0, List.length_replicate⟩
def zeroSalt : Salt := ⟨List.replicate 16 0, List.length_replicate⟩
def freshStore : AclStore := AclStore.new zeroHash none zeroSalt

/-- The text of a table whose lines are in order already. -/
def textInOrder (s : AclStore) : Text :=
  [NEWLINE].intercalate (s.users.toList.map fun e => e.2.line ascii_lowercase)

def LinesInOrder (s : AclStore) : Prop :=
  (s.users.toList.map fun e => e.2.line ascii_lowercase).Pairwise fun a b =>
    (compare a b).isLE = true

instance (s : AclStore) : Decidable (LinesInOrder s) := inferInstanceAs (Decidable (List.Pairwise _ _))

theorem dump_eq_textInOrder {s : AclStore} (h : LinesInOrder s) :
    dump ascii_lowercase s = textInOrder s := by
  rw [dump, AclStore.lines, List.mergeSort_of_pairwise h]
  rfl

def bobMay (s : AclStore) : Bool :=
  (s.users[utf8 "bob"]?).any fun u => u.can_command (utf8 "FLUSHALL") [.Admin, .Dangerous]

/-- A user with one key pattern that has a space in it. -/
def setBob : List AclAct :=
  [.setuser (utf8 "bob") [utf8 "on", utf8 "nopass", utf8 "~x +@all"] fun _ => zeroSalt]

/-- Loading what was saved gives a user all commands that had none. -/
theorem reload_grants_all :
    ∃ s : AclStore, Run (step zeroHash) (fun _ _ => True) freshStore s ∧ bobMay s = false ∧
      ∃ s' n, load zeroHash s (dump ascii_lowercase s) (fun _ _ => zeroSalt) = .ok (s', n) ∧
        bobMay s' = true := by
  have hrun : (exec (step zeroHash) (fun _ _ => true) freshStore setBob).any (fun s =>
      decide (LinesInOrder s) && !bobMay s &&
        match load zeroHash s (textInOrder s) fun _ _ => zeroSalt with
        | .ok (s', _) => bobMay s'
        | .error _ => false) = true := by
    decide +kernel
  obtain ⟨hs, hprop⟩ := (Option.any_eq_true_iff_get _ _).mp hrun
  rw [Bool.and_eq_true, Bool.and_eq_true, decide_eq_true_eq, Bool.not_eq_true'] at hprop
  refine ⟨_, .of_exec (fun _ _ _ => trivial) (Option.some_get hs).symm, hprop.1.2, ?_⟩
  rw [dump_eq_textInOrder hprop.1.1]
  have hload := hprop.2
  split at hload
  · next s' n heq => exact ⟨s', n, heq, hload⟩
  · cases hload

theorem keepsMarks_ascii_lowercase : KeepsMarks ascii_lowercase := by
  intro t b hb
  induction t with
  | nil => rfl
  | cons c t ih =>
      have hhead : (if 65 ≤ c ∧ c ≤ 90 then c + 32 else c) = b ↔ c = b := by
        have hnat : b.toNat < 65 := hb
        split
        · next hc =>
            have hlow : 65 ≤ c.toNat := UInt8.le_iff_toNat_le.mp hc.1
            have hhigh : c.toNat ≤ 90 := UInt8.le_iff_toNat_le.mp hc.2
            have hadd : (c + 32).toNat = c.toNat + 32 := by
              rw [UInt8.toNat_add]
              simp only [UInt8.reduceToNat]
              omega
            rw [← UInt8.toNat_inj, ← UInt8.toNat_inj, hadd]
            omega
        · exact Iff.rfl
      have hcons : ascii_lowercase (c :: t) =
          (if 65 ≤ c ∧ c ≤ 90 then c + 32 else c) :: ascii_lowercase t := rfl
      rw [hcons, List.count_cons, List.count_cons, ih]
      simp only [beq_iff_eq, hhead]

/-- Two patterns and two rules, without separators. -/
def setAlice : List AclAct :=
  [.setuser (utf8 "alice") [utf8 "on", utf8 "nopass", utf8 "~a:*", utf8 "~b", utf8 "+get", utf8 "-@write"]
    fun _ => zeroSalt]

/-- A test that tables in order pass when they are separable. -/
def separableInOrder (s : AclStore) : Bool :=
  (s.users.toList.all fun e => decide (Plain e.2.name) &&
    e.2.key_patterns.all (fun p => decide (Plain p)) &&
    e.2.rules.all fun r => decide r.Plain && decide (r.SameCase ascii_lowercase)) &&
  (s.users.toList.map fun e => e.2.line ascii_lowercase).all fun l => l.getLast? != some RETURN

theorem separable_of_inOrder {s : AclStore} (horder : LinesInOrder s)
    (h : separableInOrder s = true) : Separable ascii_lowercase s := by
  simp only [separableInOrder, Bool.and_eq_true, List.all_eq_true, decide_eq_true_eq] at h
  have heach : ∀ (name : Text) (u : User), s.users[name]? = some u → (name, u) ∈ s.users.toList :=
    fun name u hu => Std.ExtTreeMap.mem_toList_iff_getElem?_eq_some.mpr hu
  refine ⟨?_, ?_, ?_⟩
  · intro name u hu
    obtain ⟨⟨hname, hpatterns⟩, hrules⟩ := h.1 _ (heach name u hu)
    exact ⟨hname, hpatterns, fun r hr => (hrules r hr).1⟩
  · intro name u hu r hr
    exact ((h.1 _ (heach name u hu)).2 r hr).2
  · intro l hl
    rw [AclStore.lines, List.mergeSort_of_pairwise horder] at hl
    simpa using h.2 l (List.mem_of_mem_dropLast hl)

/-- A table with `alice` comes back. -/
theorem dump_load_alice :
    ∃ s : AclStore, (s.users[utf8 "alice"]?).isSome = true ∧
      ∃ s' n, load zeroHash freshStore (dump ascii_lowercase s) (fun _ _ => zeroSalt) = .ok (s', n) ∧
        s'.users = s.users := by
  have hrun : (exec (step zeroHash) (fun _ _ => true) freshStore setAlice).any (fun s =>
      (s.users[utf8 "alice"]?).isSome && decide (LinesInOrder s) && separableInOrder s) = true := by
    decide +kernel
  obtain ⟨hs, hprop⟩ := (Option.any_eq_true_iff_get _ _).mp hrun
  rw [Bool.and_eq_true, Bool.and_eq_true, decide_eq_true_eq] at hprop
  refine ⟨_, hprop.1.1, ?_⟩
  exact (dump_load_faithful zeroHash ascii_lowercase keepsMarks_ascii_lowercase none zeroSalt _
    (.of_exec (fun _ _ _ => trivial) (Option.some_get hs).symm) freshStore fun _ _ => zeroSalt).mpr
    (separable_of_inOrder hprop.1.2 hprop.2)

end Acl
end StrikeDB
