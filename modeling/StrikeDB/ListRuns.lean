import StrikeDB.ListCalls

/-!
# StrikeDB: lists refine sequences

Runs of list commands.  Each command runs on the commit path, alone or in a queue, or
on a snapshot; between two of them other commands may write whatever is not one of the
lists.

**Results.**
* `exec_refused`: arguments that are refused are refused before anything is read.
* `exec_spec`: every command does what it means.
* `lists_refine_sequences`: over a run, replies and stored sequences are those of the
  finite sequences, as long as no scan for the empty key is needed and LREM is not given
  the smallest integer.
-/

namespace StrikeDB
namespace Lists
open Ctx

variable {cx : Ctx} {n : Nat} {v : View} {key : Bytes} {l : List Bytes}

/-! ## Arguments -/

theorem isError_err (msg : String) : (err msg).isError = true := by
  unfold err Replies.err
  split <;> rfl

theorem parseInt_eq {a : Bytes} {e : Resp} (h : parseInt a = .error e) :
    need_int a = throw e ∧ e.isError = true := by
  unfold parseInt at h
  unfold need_int
  split at h
  · cases h
  · cases h
    exact ⟨rfl, isError_err _⟩

theorem parseInt_ok {a : Bytes} {i : Int} (h : parseInt a = .ok i) : parse_i64 a = some i := by
  unfold parseInt at h
  split at h
  · next hsome =>
      cases h
      exact hsome
  · cases h

theorem parseCount_eq {cx : Ctx} {left : Bool} {key a : Bytes} {e : Resp}
    (h : parseCount a = .error e) : pop cx left key (some a) = throw e ∧ e.isError = true := by
  unfold parseCount at h
  unfold pop
  simp only
  split at h
  · next i hi =>
      split at h
      · cases h
      · next hneg =>
          cases h
          simp only [hneg, if_false]
          exact ⟨rfl, isError_err _⟩
  · cases h
    exact ⟨rfl, isError_err _⟩

theorem parseCount_ok {a : Bytes} {k : Nat} (h : parseCount a = .ok k) : CountIs (some a) (some k) := by
  unfold parseCount at h
  split at h
  · next i hi =>
      split at h
      · next hpos =>
          cases h
          exact ⟨i, hi, hpos, rfl⟩
      · cases h
  · cases h

theorem parsePosOpts_error {o : PosOpts} {opts : List Bytes} {e : Resp}
    (h : parsePosOpts o opts = .error e) : e.isError = true := by
  fun_induction parsePosOpts o opts with
  | case1 o => cases h
  | case6 o opt v rest i hi hopt hzero hmin ih => exact ih h
  | case8 o opt v rest i hi hrank hopt hneg ih => exact ih h
  | case10 o opt v rest i hi hrank hcount hopt hneg ih => exact ih h
  | case2 | case3 | case4 | case5 | case7 | case9 | case11 =>
      cases h
      exact isError_err _

theorem map_eq_error {α β : Type} {x : Except Resp α} {f : α → β} {e : Resp}
    (h : x.map f = .error e) : x = .error e := by
  cases x with
  | error e' =>
      cases h
      rfl
  | ok a => cases h

theorem map_eq_ok {α β : Type} {x : Except Resp α} {f : α → β} {b : β}
    (h : x.map f = .ok b) : ∃ a, x = .ok a ∧ f a = b := by
  cases x with
  | error e => cases h
  | ok a =>
      cases h
      exact ⟨a, rfl, rfl⟩

theorem parsePair_error {a b : Bytes} {f : Int → Int → Call} {e : Resp}
    (h : (do
      let s ← parseInt a
      let e ← parseInt b
      .ok (f s e) : Except Resp Call) = .error e) :
    (∀ g : Int → Int → R Resp, (do
      let s ← need_int a
      let e ← need_int b
      g s e) = throw e) ∧ e.isError = true := by
  cases ha : parseInt a with
  | error e' =>
      rw [ha] at h
      cases h
      obtain ⟨hthrow, herr⟩ := parseInt_eq ha
      refine ⟨fun g => ?_, herr⟩
      rw [hthrow]
      rfl
  | ok s =>
      rw [ha] at h
      have hb := map_eq_error (x := parseInt b) (f := f s) h
      obtain ⟨hthrow, herr⟩ := parseInt_eq hb
      refine ⟨fun g => ?_, herr⟩
      rw [hthrow, need_int, parseInt_ok ha]
      rfl

theorem parsePair_ok {a b : Bytes} {f : Int → Int → Call} {c : Call}
    (h : (do
      let s ← parseInt a
      let e ← parseInt b
      .ok (f s e) : Except Resp Call) = .ok c) :
    ∃ s e, parse_i64 a = some s ∧ parse_i64 b = some e ∧ f s e = c := by
  cases ha : parseInt a with
  | error e' =>
      rw [ha] at h
      cases h
  | ok s =>
      rw [ha] at h
      obtain ⟨e, hb, hc⟩ := map_eq_ok (x := parseInt b) (f := f s) h
      exact ⟨s, e, parseInt_ok ha, parseInt_ok hb, hc⟩

theorem lmove_refused (cx : Ctx) (src dst : Bytes) {f t : Bytes}
    (h : ∀ from_left to_left, parseSide f = some from_left → parseSide t = some to_left → False) :
    parse .lmove [src, dst, f, t] = .error syntax_error ∧
      exec_inner cx .lmove [src, dst, f, t] = throw syntax_error := by
  unfold parse exec_inner
  simp only
  cases hf : parseSide f with
  | none => simp
  | some from_left =>
      cases ht : parseSide t with
      | none => simp
      | some to_left => exact absurd ht (h from_left to_left hf)

/-- Arguments that are refused are refused before anything is read. -/
theorem exec_refused (cx : Ctx) {name : Name} {args : List Bytes} {e : Resp}
    (h : parse name args = .error e) : exec_inner cx name args = throw e ∧ e.isError = true := by
  fun_cases parse name args
  case case6 key count => exact parseCount_eq (map_eq_error h)
  case case8 key count => exact parseCount_eq (map_eq_error h)
  case case10 key i =>
      obtain ⟨hthrow, herr⟩ := parseInt_eq (map_eq_error h)
      refine ⟨?_, herr⟩
      change lindex cx key i = _
      rw [lindex, hthrow]
      rfl
  case case11 key i x =>
      obtain ⟨hthrow, herr⟩ := parseInt_eq (map_eq_error h)
      refine ⟨?_, herr⟩
      change lset cx key i x = _
      rw [lset, hthrow]
      rfl
  case case12 key a b =>
      obtain ⟨hthrow, herr⟩ := parsePair_error h
      exact ⟨hthrow _, herr⟩
  case case13 key a b =>
      obtain ⟨hthrow, herr⟩ := parsePair_error h
      exact ⟨hthrow _, herr⟩
  case case16 key pat opts =>
      have herror := map_eq_error h
      refine ⟨?_, parsePosOpts_error herror⟩
      change lpos cx key pat opts = _
      rw [lpos, herror]
  case case18 src dst f t hf ht =>
      simp only [parse, hf, ht] at h
      cases h
  case case19 src dst f t hnone =>
      obtain ⟨hparse, hexec⟩ := lmove_refused cx src dst hnone
      rw [hparse] at h
      cases h
      exact ⟨hexec, isError_err _⟩
  case case20 =>
      have hparse : parse name args = .error (wrong_args name) := by
        apply parse.eq_19 <;> assumption
      rw [hparse] at h
      cases h
      refine ⟨?_, isError_err _⟩
      apply exec_inner.eq_19 <;> assumption
  all_goals cases h
/-! ## Every command against its meaning -/

/-- The keys of a command. -/
def Call.keys : Call → List Bytes
  | .push _ _ key _ | .pop _ key _ | .llen key | .lindex key _ | .lset key _ _ | .lrange key _ _
  | .ltrim key _ _ | .lrem key _ _ | .linsert key _ _ _ | .lpos key _ _ => [key]
  | .move _ _ src dst => [src, dst]

/-- The commands that scan the elements. -/
def Call.scans : Call → Bool
  | .lrange .. | .lrem .. | .linsert .. | .lpos .. => true
  | _ => false

/-- The commands that only read. -/
def Call.reads : Call → Bool
  | .llen .. | .lindex .. | .lrange .. | .lpos .. => true
  | _ => false

/-- How many values a command may add. -/
def Call.added : Call → Nat
  | .push _ _ _ vals => vals.length
  | .linsert .. | .move .. => 1
  | _ => 0

/-- No scan for the empty key is needed, and LREM is not given the smallest integer. -/
structure Call.Safe (cx : Ctx) (v : View) (c : Call) : Prop where
  scan : ∀ key ∈ c.keys, c.scans = true ∨ dead cx v key = true → key ≠ []
  count : ∀ key target, c ≠ .lrem key (some (-2 ^ 63)) target

theorem Refuses.post {w : View} {e : Resp} {r : Except Resp Resp} {keys : List Bytes}
    {db : Bytes → List Bytes} (h : Refuses e r w) (herr : e.isError = true) :
    Post cx n v keys (e, db) w r := by
  obtain rfl := h
  exact .refused herr

theorem countIs_none : CountIs none none := rfl

section Posts

variable {db : Bytes → List Bytes}

theorem push_post (hw : cx.readonly = false) (left must_exist : Bool) (vals : List Bytes)
    (hkey : Purges cx v key) (hn : n + vals.length < 2 ^ 63) (h : Holds n v key (db key)) :
    (push cx left must_exist key vals).wp
      (fun r w => Post cx (n + vals.length) v [key]
        ((Call.push left must_exist key vals).reference fun key => live cx v key (db key)) w r) v := by
  refine R.wp_mono (push_spec hw left must_exist vals hkey hn h) fun r w hr => ?_
  simp only [Call.reference]
  split at hr
  · next hnone =>
      rw [if_pos hnone]
      exact hr.post rfl hnone.2
  · next hpush =>
      rw [if_neg hpush]
      exact hr.post rfl (Function.update_self ..)

theorem pop_post (hw : cx.readonly = false) (left : Bool) {a : Option Bytes} {count : Option Nat}
    (ha : CountIs a count) (hkey : Purges cx v key) (hn : n < 2 ^ 63) (h : Holds n v key (db key)) :
    (pop cx left key a).wp
      (fun r w => Post cx n v [key]
        ((Call.pop left key count).reference fun key => live cx v key (db key)) w r) v := by
  refine R.wp_mono (pop_spec hw left ha hkey hn h) fun r w hr => ?_
  simp only [Call.reference]
  split at hr
  · next hnil =>
      rw [if_pos hnil]
      exact hr.post rfl hnil
  · next hne =>
      rw [if_neg hne]
      refine Does.post hr ?_ (Function.update_self ..)
      obtain ⟨x, hx⟩ := ends_one_cons left hne
      cases count with
      | none =>
          rw [hx]
          rfl
      | some k => rfl

theorem lset_post (hw : cx.readonly = false) {a : Bytes} {i : Int} (ha : parse_i64 a = some i)
    (x : Bytes) (hkey : Purges cx v key) (hn : n < 2 ^ 63) (h : Holds n v key (db key)) :
    (lset cx key a x).wp
      (fun r w => Post cx n v [key]
        ((Call.lset key i x).reference fun key => live cx v key (db key)) w r) v := by
  refine R.wp_mono (lset_spec hw ha x hkey hn h) fun r w hr => ?_
  simp only [Call.reference]
  split at hr
  · next hnil =>
      rw [if_pos hnil]
      exact hr.post (isError_err _)
  · next hne =>
      rw [if_neg hne]
      cases hat : at_ (live cx v key (db key)) i with
      | none =>
          rw [hat] at hr
          exact Refuses.post hr (isError_err _)
      | some i =>
          rw [hat] at hr
          exact Does.post hr rfl (Function.update_self ..)

theorem lrem_post (hw : cx.readonly = false) {a target : Bytes}
    (hcount : parse_i64 a ≠ some (-2 ^ 63)) (hkey : key ≠ []) (hn : n < 2 ^ 63)
    (h : Holds n v key (db key)) :
    (lrem cx key a target).wp
      (fun r w => Post cx n v [key]
        ((Call.lrem key (parse_i64 a) target).reference fun key => live cx v key (db key)) w r) v := by
  refine R.wp_mono (lrem_spec hw a target hcount hkey hn h) fun r w hr => ?_
  simp only [Call.reference]
  split at hr
  · next hnil =>
      rw [if_pos hnil]
      exact hr.post rfl hnil
  · next hne =>
      rw [if_neg hne]
      cases hparse : parse_i64 a with
      | none =>
          rw [hparse] at hr
          exact Refuses.post hr (isError_err _)
      | some count =>
          rw [hparse] at hr
          exact Does.post hr rfl (Function.update_self ..)

theorem linsert_post (hw : cx.readonly = false) {w pivot x : Bytes} (hkey : key ≠ [])
    (hn : n + 1 < 2 ^ 63) (h : Holds n v key (db key)) :
    (linsert cx key w pivot x).wp
      (fun r w' => Post cx (n + 1) v [key] ((Call.linsert key (parseWhere w) pivot x).reference
        fun key => live cx v key (db key)) w' r) v := by
  refine R.wp_mono (linsert_spec hw w pivot x hkey hn h) fun r w' hr => ?_
  simp only [Call.reference]
  split at hr
  · next hnil =>
      rw [if_pos hnil]
      exact hr.post rfl hnil
  · next hne =>
      rw [if_neg hne]
      cases hwhere : parseWhere w with
      | none =>
          rw [hwhere] at hr
          exact Refuses.post hr (isError_err _)
      | some before =>
          rw [hwhere] at hr
          cases hfind : (live cx v key (db key)).findIdx? (· = pivot) with
          | none =>
              rw [hfind] at hr
              exact Does.post hr rfl rfl
          | some p =>
              rw [hfind] at hr
              exact Does.post hr rfl (Function.update_self ..)

theorem isError_posReply (o : PosOpts) (found : List Int) : (posReply o found).isError = false := by
  unfold posReply
  cases o.count with
  | some c => rfl
  | none => cases found <;> rfl

end Posts

/-- Every command does what it means, when it is safe. -/
theorem exec_spec {name : Name} {args : List Bytes} {c : Call} {db : Bytes → List Bytes}
    (hparse : parse name args = .ok c) (hsafe : c.Safe cx v)
    (hw : cx.readonly = true → c.reads = true) (h : ∀ key ∈ c.keys, Holds n v key (db key))
    (hn : n + c.added < 2 ^ 63) :
    (exec_inner cx name args).wp
      (fun r w => Post cx (n + c.added) v (c.touches fun key => live cx v key (db key))
        (c.reference fun key => live cx v key (db key)) w r) v := by
  have hwrites : c.reads = false → cx.readonly = false := by
    intro hreads
    cases hr : cx.readonly with
    | false => rfl
    | true => exact absurd (hreads.symm.trans (hw hr)) (by decide)
  have hpurges : ∀ key ∈ c.keys, Purges cx v key :=
    fun key hkey hdead => hsafe.scan key hkey (.inr hdead)
  have hscan : ∀ key ∈ c.keys, c.scans = true → key ≠ [] :=
    fun key hkey hscans => hsafe.scan key hkey (.inl hscans)
  fun_cases parse name args
  case case1 key x xs =>
      cases hparse
      exact push_post (hwrites rfl) true false (x :: xs) (hpurges key List.mem_cons_self) hn
        (h key List.mem_cons_self)
  case case2 key x xs =>
      cases hparse
      exact push_post (hwrites rfl) false false (x :: xs) (hpurges key List.mem_cons_self) hn
        (h key List.mem_cons_self)
  case case3 key x xs =>
      cases hparse
      exact push_post (hwrites rfl) true true (x :: xs) (hpurges key List.mem_cons_self) hn
        (h key List.mem_cons_self)
  case case4 key x xs =>
      cases hparse
      exact push_post (hwrites rfl) false true (x :: xs) (hpurges key List.mem_cons_self) hn
        (h key List.mem_cons_self)
  case case5 key =>
      cases hparse
      exact pop_post (hwrites rfl) true countIs_none (hpurges key List.mem_cons_self)
        hn (h key List.mem_cons_self)
  case case6 key count =>
      obtain ⟨k, hk, rfl⟩ := map_eq_ok hparse
      exact pop_post (hwrites rfl) true (parseCount_ok hk) (hpurges key List.mem_cons_self) hn
        (h key List.mem_cons_self)
  case case7 key =>
      cases hparse
      exact pop_post (hwrites rfl) false countIs_none (hpurges key List.mem_cons_self)
        hn (h key List.mem_cons_self)
  case case8 key count =>
      obtain ⟨k, hk, rfl⟩ := map_eq_ok hparse
      exact pop_post (hwrites rfl) false (parseCount_ok hk) (hpurges key List.mem_cons_self) hn
        (h key List.mem_cons_self)
  case case9 key =>
      cases hparse
      refine R.wp_mono (llen_spec (hpurges key List.mem_cons_self) hn (h key List.mem_cons_self))
        fun r w hr => hr.post rfl rfl
  case case10 key a =>
      obtain ⟨i, hi, rfl⟩ := map_eq_ok hparse
      refine R.wp_mono (lindex_spec (parseInt_ok hi) (hpurges key List.mem_cons_self) hn
        (h key List.mem_cons_self)) fun r w hr => Does.post hr ?_ rfl
      cases (at_ (live cx v key (db key)) i).bind fun i => (live cx v key (db key))[i]? <;> rfl
  case case11 key a x =>
      obtain ⟨i, hi, rfl⟩ := map_eq_ok hparse
      exact lset_post (hwrites rfl) (parseInt_ok hi) x (hpurges key List.mem_cons_self) hn
        (h key List.mem_cons_self)
  case case12 key a b =>
      obtain ⟨s, e, ha, hb, rfl⟩ := parsePair_ok hparse
      exact R.wp_mono (lrange_spec ha hb (hscan key List.mem_cons_self rfl) hn
        (h key List.mem_cons_self)) fun r w hr => hr.post rfl rfl
  case case13 key a b =>
      obtain ⟨s, e, ha, hb, rfl⟩ := parsePair_ok hparse
      exact R.wp_mono (ltrim_spec (hwrites rfl) ha hb (hpurges key List.mem_cons_self) hn
        (h key List.mem_cons_self)) fun r w hr => hr.post rfl (Function.update_self ..)
  case case14 key count target =>
      cases hparse
      refine lrem_post (hwrites rfl) (fun hmin => hsafe.count key target ?_)
        (hscan key List.mem_cons_self rfl) hn (h key List.mem_cons_self)
      rw [hmin]
  case case15 key w pivot x =>
      cases hparse
      exact linsert_post (hwrites rfl) (hscan key List.mem_cons_self rfl) hn
        (h key List.mem_cons_self)
  case case16 key pat opts =>
      obtain ⟨o, ho, rfl⟩ := map_eq_ok hparse
      exact R.wp_mono (lpos_spec ho (hscan key List.mem_cons_self rfl) hn
        (h key List.mem_cons_self)) fun r w hr => hr.post (isError_posReply _ _) rfl
  case case17 src dst =>
      cases hparse
      exact move_spec (hwrites rfl) false true (hpurges src List.mem_cons_self)
        (hpurges dst (List.mem_cons_of_mem _ List.mem_cons_self)) hn (h src List.mem_cons_self)
        (h dst (List.mem_cons_of_mem _ List.mem_cons_self))
  case case18 src dst f t from_left to_left hf ht =>
      have hcall : parse .lmove [src, dst, f, t] = .ok (.move from_left to_left src dst) := by
        simp only [parse, hf, ht]
      have hexec : exec_inner cx .lmove [src, dst, f, t] = move cx from_left to_left src dst := by
        simp only [exec_inner, hf, ht]
      rw [hcall] at hparse
      cases hparse
      rw [hexec]
      exact move_spec (hwrites rfl) from_left to_left (hpurges src List.mem_cons_self)
        (hpurges dst (List.mem_cons_of_mem _ List.mem_cons_self)) hn (h src List.mem_cons_self)
        (h dst (List.mem_cons_of_mem _ List.mem_cons_self))
  case case19 src dst f t hnone =>
      rw [(lmove_refused cx src dst hnone).1] at hparse
      cases hparse
  case case20 =>
      have hwrong : parse name args = .error (wrong_args name) := by
        apply parse.eq_19 <;> assumption
      rw [hwrong] at hparse
      cases hparse

/-! ## Runs -/

/-- One command that was served: the view it found and the view it left. -/
structure Served where
  now : UInt64
  readonly : Bool
  name : Name
  args : List Bytes
  before : View
  reply : Resp
  after : View

def Served.context (fmt : UInt64 → Bytes) (s : Served) : Ctx :=
  { now := s.now, readonly := s.readonly, fmt_f64 := fmt }

def Served.cmd (fmt : UInt64 → Bytes) (s : Served) : Cmd Resp :=
  (exec_inner (s.context fmt) s.name s.args).exec

/-- How a command is served: on the commit path behind the writes of its queue, taken
whole or not at all; or, when it is one that only reads, on a snapshot. -/
inductive Served.Valid (fmt : UInt64 → Bytes) (s : Served) : Prop
  | commit (core : FlushCore) (overlay writes : ValueMap) (hwrite : s.readonly = false)
      (hbefore : s.before = viewOf core overlay (.of writes))
      (hreply : s.reply = ((s.cmd fmt).taken core overlay writes).answer)
      (hafter : s.after = viewOf core overlay (.of ((s.cmd fmt).taken core overlay writes).writes))
  | snapshot (core : FlushCore) (t : Txn) (hread : s.readonly = true)
      (hname : ∀ c, parse s.name s.args = .ok c → c.reads = true)
      (hbefore : s.before = t.value core)
      (hreply : s.reply = (runTxn core ((s.cmd fmt).toOp []) t).1.1)
      (hafter : s.after = s.before)

/-- One command after the other; between them, nothing of the lists is touched. -/
def Chain (lists : Set Bytes) : View → List Served → View → Prop
  | v, [], w => ∀ key ∈ lists, ∀ k, Owns key k → w k = v k
  | v, s :: ss, w =>
      (∀ key ∈ lists, ∀ k, Owns key k → s.before k = v k) ∧ Chain lists s.after ss w

/-- What a command that was served means: a sequence whose deadline has passed is empty,
an error changes nothing, and neither does a snapshot. -/
def Served.means (fmt : UInt64 → Bytes) (s : Served) (db : Bytes → List Bytes) :
    Resp × (Bytes → List Bytes) :=
  match parse s.name s.args with
  | .error e => (e, db)
  | .ok c =>
      let found := fun key => live (s.context fmt) s.before key (db key)
      let out := c.reference found
      (out.1,
        if out.1.isError ∨ s.readonly then db
        else fun key => if key ∈ c.touches found then out.2 key else db key)

/-- What a run means. -/
def meaning (fmt : UInt64 → Bytes) : List Served → (Bytes → List Bytes) →
    List Resp × (Bytes → List Bytes)
  | [], db => ([], db)
  | s :: ss, db =>
      let rest := meaning fmt ss (s.means fmt db).2
      ((s.means fmt db).1 :: rest.1, rest.2)

/-- How many values a command may add. -/
def Served.added (s : Served) : Nat :=
  match parse s.name s.args with
  | .ok c => c.added
  | .error _ => 0

/-- A command of a run on lists, safe where it is served. -/
def Served.Safe (fmt : UInt64 → Bytes) (lists : Set Bytes) (s : Served) : Prop :=
  ∀ c, parse s.name s.args = .ok c → (∀ key ∈ c.keys, key ∈ lists) ∧ c.Safe (s.context fmt) s.before

theorem touches_subset {c : Call} {db : Bytes → List Bytes} {key : Bytes}
    (h : key ∈ c.touches db) : key ∈ c.keys := by
  cases c with
  | move from_left to_left src dst =>
      unfold Call.touches at h
      simp only at h
      split at h
      · exact List.mem_cons.mpr (.inl (List.mem_singleton.mp h))
      · exact h
  | _ => exact h

theorem Holds.mono {n' : Nat} (h : Holds n v key l) (hn : n ≤ n') : Holds n' v key l := by
  obtain ⟨head, hat, hroom⟩ := h
  exact ⟨head, hat, hroom.mono hn⟩

/-- The answer is the one that is meant, and unless it is an error so are the sequences
that a command which may write leaves. -/
def Answers (cx : Ctx) (n : Nat) (v : View) (keys : List Bytes) (out : Resp × (Bytes → List Bytes))
    (reply : Resp) (w : View) : Prop :=
  reply = out.1 ∧ (out.1.isError = false → cx.readonly = false →
    (∀ key ∈ keys, Holds n w key (out.2 key)) ∧ ∀ k, (∀ key ∈ keys, ¬ Owns key k) → w k = v k)

theorem wp_answers {m : R Resp} {keys : List Bytes} {out : Resp × (Bytes → List Bytes)}
    (h : m.wp (fun r w => Post cx n v keys out w r) v) : m.exec.wp (Answers cx n v keys out) v := by
  refine R.wp_exec (R.wp_mono h fun r w hpost => ?_)
  cases hpost with
  | refused herr => exact ⟨rfl, fun hok => absurd (herr.symm.trans hok) (by decide)⟩
  | done hok hkept hholds hsame => exact ⟨rfl, fun _ hw => ⟨hholds hw, hsame hw⟩⟩

/-- One command: its reply is the one that is meant, and so is what it leaves. -/
theorem Served.step {fmt : UInt64 → Bytes} {lists : Set Bytes} {s : Served}
    {db : Bytes → List Bytes} (hvalid : s.Valid fmt) (hsafe : s.Safe fmt lists)
    (h : ∀ key ∈ lists, Holds n s.before key (db key)) (hn : n + s.added < 2 ^ 63) :
    s.reply = (s.means fmt db).1 ∧
      ∀ key ∈ lists, Holds (n + s.added) s.after key ((s.means fmt db).2 key) := by
  have hmono : ∀ key ∈ lists, Holds (n + s.added) s.before key (db key) :=
    fun key hkey => (h key hkey).mono (Nat.le_add_right ..)
  cases hparse : parse s.name s.args with
  | error e =>
      obtain ⟨hthrow, herr⟩ := exec_refused (s.context fmt) hparse
      have hcmd : s.cmd fmt = .ret e := by
        unfold Served.cmd
        rw [hthrow]
        rfl
      have hmeans : s.means fmt db = (e, db) := by
        unfold Served.means
        rw [hparse]
      rw [hmeans]
      cases hvalid with
      | commit core overlay writes hwrite hbefore hreply hafter =>
          have htaken : (s.cmd fmt).taken core overlay writes =
              { answer := e, exp := [], writes := writes } := by
            rw [hcmd]
            exact if_pos herr
          rw [htaken] at hreply hafter
          rw [hafter, ← hbefore]
          exact ⟨hreply, hmono⟩
      | snapshot core t hread hname hbefore hreply hafter =>
          rw [hcmd] at hreply
          rw [hafter]
          exact ⟨hreply, hmono⟩
  | ok c =>
      obtain ⟨hkeys, hcsafe⟩ := hsafe c hparse
      have hadded : s.added = c.added := by
        unfold Served.added
        rw [hparse]
      rw [hadded] at hn hmono ⊢
      have hmeans : s.means fmt db =
          ((c.reference fun key => live (s.context fmt) s.before key (db key)).1,
            if (c.reference fun key => live (s.context fmt) s.before key (db key)).1.isError ∨
                s.readonly then db
            else fun key =>
              if key ∈ c.touches fun key => live (s.context fmt) s.before key (db key) then
                (c.reference fun key => live (s.context fmt) s.before key (db key)).2 key
              else db key) := by
        unfold Served.means
        rw [hparse]
      rw [hmeans]
      have hspec := fun hw : s.readonly = true → c.reads = true =>
        exec_spec hparse hcsafe hw (fun key hkey => h key (hkeys key hkey)) hn
      generalize (c.reference fun key => live (s.context fmt) s.before key (db key)) = out at hspec ⊢
      have htouches : ∀ key ∈ c.touches fun key => live (s.context fmt) s.before key (db key),
          key ∈ lists := fun key hkey => hkeys key (touches_subset hkey)
      generalize (c.touches fun key => live (s.context fmt) s.before key (db key)) = keys
        at hspec htouches ⊢
      cases hvalid with
      | commit core overlay writes hwrite hbefore hreply hafter =>
          have hexec := wp_answers (hspec fun hr => absurd (hr.symm.trans hwrite) (by decide))
          rw [hbefore] at hexec
          obtain ⟨hanswer, hleft⟩ := Cmd.wp_commit core overlay [] (.of writes) hexec
          have hdid : ((s.cmd fmt).did core overlay writes).answer = out.1 := hanswer
          have htaken : (s.cmd fmt).taken core overlay writes =
              if out.1.isError then { answer := out.1, exp := [], writes := writes }
              else (s.cmd fmt).did core overlay writes := by
            unfold Cmd.taken
            simp only [hdid]
          rw [htaken] at hreply hafter
          rw [hwrite]
          cases herr : out.1.isError with
          | true =>
              rw [herr, if_pos rfl] at hreply hafter
              rw [if_pos (.inl rfl), hafter, ← hbefore]
              exact ⟨hreply, hmono⟩
          | false =>
              rw [herr, if_neg (by decide)] at hreply hafter
              rw [hdid] at hreply
              rw [if_neg (by decide), hafter]
              obtain ⟨hholds, hsame⟩ := hleft herr hwrite
              refine ⟨hreply, fun key hkey => ?_⟩
              simp only
              by_cases htouch : key ∈ keys
              · rw [if_pos htouch]
                exact hholds key htouch
              · rw [if_neg htouch]
                refine (hmono key hkey).congr fun k hk => ?_
                rw [hbefore]
                refine hsame k fun key' hkey' => not_owns_of_ne ?_ hk
                rintro rfl
                exact htouch hkey'
      | snapshot core t hread hname hbefore hreply hafter =>
          have hexec := wp_answers (hspec fun _ => hname c hparse)
          rw [hbefore] at hexec
          obtain ⟨hanswer, -⟩ := Cmd.wp_snapshot core [] t hexec
          rw [hread, if_pos (.inr rfl), hafter]
          exact ⟨hreply.trans hanswer, hmono⟩

/-- A key without values is gone, and nothing of it is left. -/
theorem Holds.vanishes (h : Holds n v key l) :
    (v (kv key) = none ↔ l = []) ∧ (l = [] → ∀ k, Owns key k → v k = none) := by
  obtain ⟨head, hat, -⟩ := h
  constructor
  · constructor
    · intro hnone
      by_contra hne
      obtain ⟨b, m, hb, -⟩ := hat.header hne
      rw [hnone] at hb
      cases hb
    · exact fun hnil => (hat.absent hnil).1
  · rintro rfl k (rfl | rfl | hk)
    · exact (hat.absent rfl).1
    · exact (hat.absent rfl).2
    · cases hv : v k with
      | none => rfl
      | some x =>
          obtain ⟨s, -, -, hwin⟩ := hat.elements.found hk hv
          rw [window_nil] at hwin
          cases hwin

/-- A sequence is stored under a key, which is there exactly when the sequence has
values. -/
structure Stored (v : View) (key : Bytes) (l : List Bytes) : Prop where
  holds : ∃ n < 2 ^ 63, Holds n v key l
  absent : v (kv key) = none ↔ l = []
  nothing : l = [] → ∀ k, Owns key k → v k = none

/-- What the claims of a run are: the replies are those of the sequences, and in the end
the sequences are stored. -/
def Refines (fmt : UInt64 → Bytes) (lists : Set Bytes) (ss : List Served) (w : View)
    (db : Bytes → List Bytes) : Prop :=
  ss.map Served.reply = (meaning fmt ss db).1 ∧
    ∀ key ∈ lists, Stored w key ((meaning fmt ss db).2 key)

theorem run_holds {fmt : UInt64 → Bytes} {lists : Set Bytes} {ss : List Served} {v w : View}
    {db : Bytes → List Bytes} (hchain : Chain lists v ss w) (hvalid : ∀ s ∈ ss, s.Valid fmt)
    (hsafe : ∀ s ∈ ss, s.Safe fmt lists) (h : ∀ key ∈ lists, Holds n v key (db key))
    (hn : n + (ss.map Served.added).sum < 2 ^ 63) :
    ss.map Served.reply = (meaning fmt ss db).1 ∧
      ∀ key ∈ lists, Holds (n + (ss.map Served.added).sum) w key ((meaning fmt ss db).2 key) := by
  induction ss generalizing v db n with
  | nil => exact ⟨rfl, fun key hkey => (h key hkey).congr (hchain key hkey)⟩
  | cons s ss ih =>
      obtain ⟨hbefore, hrest⟩ := hchain
      have hsum : n + ((s :: ss).map Served.added).sum = n + s.added + (ss.map Served.added).sum := by
        rw [List.map_cons, List.sum_cons, Nat.add_assoc]
      rw [hsum] at hn ⊢
      have hfound : ∀ key ∈ lists, Holds n s.before key (db key) :=
        fun key hkey => (h key hkey).congr (hbefore key hkey)
      obtain ⟨hreply, hleft⟩ := Served.step (hvalid s List.mem_cons_self)
        (hsafe s List.mem_cons_self) hfound (by omega)
      obtain ⟨hreplies, hholds⟩ := ih hrest
        (fun s' hs' => hvalid s' (List.mem_cons_of_mem _ hs'))
        (fun s' hs' => hsafe s' (List.mem_cons_of_mem _ hs')) hleft hn
      refine ⟨?_, hholds⟩
      rw [List.map_cons, hreply, hreplies]
      rfl

/-- Lists refine sequences over every run whose commands are safe. -/
theorem lists_refine_sequences {fmt : UInt64 → Bytes} {lists : Set Bytes} {ss : List Served}
    {v w : View} {db : Bytes → List Bytes} {n : Nat} (hchain : Chain lists v ss w)
    (hvalid : ∀ s ∈ ss, s.Valid fmt) (hstart : ∀ key ∈ lists, Holds n v key (db key))
    (hsafe : ∀ s ∈ ss, s.Safe fmt lists) (hroom : n + (ss.map Served.added).sum < 2 ^ 63) :
    Refines fmt lists ss w db := by
  obtain ⟨hreplies, hholds⟩ := run_holds hchain hvalid hsafe hstart hroom
  refine ⟨hreplies, fun key hkey => ?_⟩
  have hlist := hholds key hkey
  obtain ⟨habsent, hnothing⟩ := hlist.vanishes
  exact ⟨⟨_, hroom, hlist⟩, habsent, hnothing⟩

/-! ## Queues -/

/-- A command on the commit path, behind the writes of its queue. -/
def serve (fmt : UInt64 → Bytes) (core : FlushCore) (overlay writes : ValueMap) (now : UInt64)
    (name : Name) (args : List Bytes) : Served × ValueMap :=
  let cx : Ctx := { now := now, readonly := false, fmt_f64 := fmt }
  let d := (exec_inner cx name args).exec.taken core overlay writes
  ({ now := now, readonly := false, name := name, args := args
     before := viewOf core overlay (.of writes)
     reply := d.answer
     after := viewOf core overlay (.of d.writes) }, d.writes)

/-- The commands of one queue. -/
def serveAll (fmt : UInt64 → Bytes) (core : FlushCore) (overlay : ValueMap) (now : UInt64) :
    ValueMap → List (Name × List Bytes) → List Served × ValueMap
  | writes, [] => ([], writes)
  | writes, (name, args) :: cmds =>
      let s := serve fmt core overlay writes now name args
      let rest := serveAll fmt core overlay now s.2 cmds
      (s.1 :: rest.1, rest.2)

/-- A queue is a run. -/
theorem serveAll_run (fmt : UInt64 → Bytes) (core : FlushCore) (overlay writes : ValueMap)
    (now : UInt64) (lists : Set Bytes) (cmds : List (Name × List Bytes)) :
    (∀ s ∈ (serveAll fmt core overlay now writes cmds).1, s.Valid fmt) ∧
      Chain lists (viewOf core overlay (.of writes)) (serveAll fmt core overlay now writes cmds).1
        (viewOf core overlay (.of (serveAll fmt core overlay now writes cmds).2)) := by
  induction cmds generalizing writes with
  | nil => exact ⟨fun s hs => absurd hs List.not_mem_nil, fun _ _ _ _ => rfl⟩
  | cons cmd cmds ih =>
      obtain ⟨hvalid, hchain⟩ := ih (serve fmt core overlay writes now cmd.1 cmd.2).2
      refine ⟨fun s hs => ?_, fun _ _ _ _ => rfl, hchain⟩
      rcases List.mem_cons.mp hs with rfl | hs
      · exact .commit core overlay writes rfl rfl rfl rfl
      · exact hvalid s hs

theorem holds_absent {v : View} (h : ∀ k, v k = none) (key : Bytes) : Holds 0 v key [] :=
  ⟨0, listAt_nil (h _) (h _) ⟨fun _ _ => h _, fun _ _ => h _⟩ 0, by constructor <;> simp⟩

theorem Served.safe_of {fmt : UInt64 → Bytes} {lists : Set Bytes} {s : Served} {c : Call}
    (hparse : parse s.name s.args = .ok c) (hlists : ∀ key ∈ c.keys, key ∈ lists ∧ key ≠ [])
    (hcount : ∀ key target, c ≠ .lrem key (some (-2 ^ 63)) target) : s.Safe fmt lists := by
  intro c' hc'
  obtain rfl : c = c' := Except.ok.inj (hparse.symm.trans hc')
  exact ⟨fun key hkey => (hlists key hkey).1, fun key hkey _ => (hlists key hkey).2, hcount⟩

/-- A queue on an engine without keys. -/
def onEmpty (cmds : List (Name × List Bytes)) : List Served × ValueMap :=
  serveAll (fun _ => []) emptyCore ∅ 0 ∅ cmds

theorem empty_view (k : Key) : viewOf emptyCore ∅ (.of ∅) k = none := by
  unfold viewOf OpStore.get OpState.of
  rw [Std.ExtTreeMap.getElem?_empty]
  rfl

/-- The arguments of a queue decide whether its commands are safe. -/
theorem serveAll_safe {fmt : UInt64 → Bytes} {core : FlushCore} {overlay writes : ValueMap}
    {now : UInt64} {lists : Set Bytes} {cmds : List (Name × List Bytes)}
    (h : ∀ cmd ∈ cmds, ∃ c, parse cmd.1 cmd.2 = .ok c ∧ (∀ key ∈ c.keys, key ∈ lists ∧ key ≠ []) ∧
      ∀ key target, c ≠ .lrem key (some (-2 ^ 63)) target) :
    ∀ s ∈ (serveAll fmt core overlay now writes cmds).1, s.Safe fmt lists := by
  induction cmds generalizing writes with
  | nil => exact fun s hs => absurd hs List.not_mem_nil
  | cons cmd cmds ih =>
      intro s hs
      rcases List.mem_cons.mp hs with rfl | hs
      · obtain ⟨c, hparse, hkeys, hcount⟩ := h cmd List.mem_cons_self
        exact Served.safe_of hparse hkeys hcount
      · exact ih (fun cmd' hcmd => h cmd' (List.mem_cons_of_mem _ hcmd)) s hs

/-- RPUSH k a b, LMOVE k k LEFT RIGHT, LREM k 1 a. -/
def turning : List (Name × List Bytes) :=
  [(.rpush, [[107], [97], [98]]),
    (.lmove, [[107], [107], utf8 "LEFT", utf8 "RIGHT"]),
    (.lrem, [[107], [49], [97]])]

/-- A list whose first value is moved to its other end, and then removed. -/
theorem turned_list : Refines (fun _ => []) {[107]} (onEmpty turning).1
    (viewOf emptyCore ∅ (.of (onEmpty turning).2)) fun _ => [] := by
  obtain ⟨hvalid, hchain⟩ := serveAll_run (fun _ => []) emptyCore ∅ ∅ 0 {[107]} turning
  refine lists_refine_sequences hchain hvalid (fun key _ => holds_absent empty_view key) ?_
    (by decide +kernel)
  refine serveAll_safe fun cmd hcmd => ?_
  have hone : parse_i64 [49] = some 1 := by decide +kernel
  have hsides : parseSide (utf8 "LEFT") = some true ∧ parseSide (utf8 "RIGHT") = some false := by
    decide +kernel
  simp only [turning, List.mem_cons, List.not_mem_nil, or_false] at hcmd
  rcases hcmd with rfl | rfl | rfl
  · exact ⟨.push false false [107] [[97], [98]], rfl, by simp [Call.keys], fun _ _ => nofun⟩
  · refine ⟨.move true false [107] [107], ?_, by simp [Call.keys], fun _ _ => nofun⟩
    simp only [parse, hsides]
  · refine ⟨.lrem [107] (some 1) [97], ?_, by simp [Call.keys], fun key target h => ?_⟩
    · simp only [parse, hone]
    · cases h

/-- RPUSH k a, LREM k -9223372036854775808 a. -/
def sparing : List (Name × List Bytes) :=
  [(.rpush, [[107], [97]]), (.lrem, [[107], utf8 "-9223372036854775808", [97]])]

/-- LREM with the smallest integer removes nothing, where the sequence loses its only
value. -/
theorem smallest_count_removes_nothing :
    ¬ ∀ (fmt : UInt64 → Bytes) (lists : Set Bytes) (ss : List Served) (v w : View)
      (db : Bytes → List Bytes) (n : Nat), Chain lists v ss w → (∀ s ∈ ss, s.Valid fmt) →
        (∀ key ∈ lists, Holds n v key (db key)) →
        (∀ s ∈ ss, ∀ c, parse s.name s.args = .ok c → ∀ key ∈ c.keys, key ∈ lists ∧ key ≠ []) →
        n + (ss.map Served.added).sum < 2 ^ 63 → Refines fmt lists ss w db := by
  intro hclaim
  obtain ⟨hvalid, hchain⟩ := serveAll_run (fun _ => []) emptyCore ∅ ∅ 0 {[107]} sparing
  have hkeys : ∀ s ∈ (onEmpty sparing).1, ∀ c, parse s.name s.args = .ok c →
      ∀ key ∈ c.keys, key ∈ ({[107]} : Set Bytes) ∧ key ≠ [] := by
    intro s hs c hparse
    have hargs : parse s.name s.args = .ok (.push false false [107] [[97]]) ∨
        ∃ count, parse s.name s.args = .ok (.lrem [107] count [97]) := by
      simp only [onEmpty, sparing, serveAll, List.mem_cons, List.not_mem_nil, or_false] at hs
      rcases hs with rfl | rfl
      · exact .inl rfl
      · exact .inr ⟨_, rfl⟩
    rcases hargs with hpush | ⟨count, hrem⟩
    · obtain rfl := Except.ok.inj (hpush.symm.trans hparse)
      simp [Call.keys]
    · obtain rfl := Except.ok.inj (hrem.symm.trans hparse)
      simp [Call.keys]
  obtain ⟨hreplies, -⟩ := hclaim (fun _ => []) {[107]} (onEmpty sparing).1 _ _ (fun _ => []) 0
    hchain hvalid (fun key _ => holds_absent empty_view key) hkeys (by decide +kernel)
  have hbytes := congrArg (List.map Resp.encode) hreplies
  revert hbytes
  decide +kernel

end Lists
end StrikeDB
