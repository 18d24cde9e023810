import StrikeDB.Collections

/-!
# StrikeDB: runs of commands on collections

A type of collections comes with an object that stands for what is stored, its commands,
and what they mean for these objects.  `Kind.Lawful` is what has to be shown of one
command; a run of them, on the commit path, in queues and on snapshots, then means what
its commands mean one after the other.

**Results.**
* `wp_found`, `wp_new`, `wp_save`: loading and storing an object.
* `refines`: over a run, answers and stored objects are those that are meant.
-/

namespace StrikeDB
namespace Coll

open Ctx
open Lists (dead Deadline Later)

/-! ## Parsed arguments -/

theorem map_error {α β : Type} {x : Except Resp α} {f : α → β} {e : Resp}
    (h : x.map f = .error e) : x = .error e := by
  cases x with
  | error e' => exact congrArg Except.error (Except.error.inj h)
  | ok a => cases h

/-! ## Kinds -/

/-- A type of collections, its commands and their meaning. -/
structure Kind (Obj Line : Type) where
  ty : UInt8
  empty : Obj
  /-- The number of elements. -/
  size : Obj → Nat
  /-- The elements that are stored for an object. -/
  Rep : Obj → Fams → Prop
  exec : Ctx → Line → R Resp
  reads : Line → Bool
  keys : Line → List Bytes
  /-- The keys that are reached, from the objects that are found. -/
  touches : Line → (Bytes → Obj) → List Bytes
  /-- How large objects of some size may become. -/
  grows : Line → Nat → Nat
  /-- The random draws of the command suffice. -/
  Drawn : Line → (Bytes → Obj) → Prop
  /-- The answer, and the objects of the keys that are reached. -/
  Means : Ctx → Line → (Bytes → Obj) → Resp → (Bytes → Obj) → Prop

namespace Kind

variable {Obj Line γ : Type} {K : Kind Obj Line} {cx : Ctx} {n n' : Nat} {key : Bytes}
  {v v' : View} {o : Obj} {Q : Except Resp γ → View → Prop}

/-- An object of at most `n` elements is stored. -/
def Holds (K : Kind Obj Line) (n : Nat) (v : View) (key : Bytes) (o : Obj) : Prop :=
  (∃ fams, CollAt K.ty v key (K.size o) fams ∧ K.Rep o fams) ∧ K.size o ≤ n

/-- An object whose deadline has passed is empty. -/
def found (K : Kind Obj Line) (cx : Ctx) (v : View) (db : Bytes → Obj) : Bytes → Obj :=
  fun key => if dead cx v key then K.empty else db key

/-- What a command does, against its meaning: an error is answered, or the objects of the
keys it reaches are left and nothing else changes. -/
inductive Post (K : Kind Obj Line) (cx : Ctx) (n : Nat) (v : View) (keys : List Bytes)
    (out : Resp × (Bytes → Obj)) (w : View) : Except Resp Resp → Prop
  | refused (herr : out.1.isError = true) : Post K cx n v keys out w (.error out.1)
  | done (hok : out.1.isError = false)
      (hholds : cx.readonly = false → ∀ key ∈ keys, K.Holds n w key (out.2 key))
      (hsame : cx.readonly = false → ∀ k, (∀ key ∈ keys, ¬ Owns K.ty key k) → w k = v k) :
      Post K cx n v keys out w (.ok out.1)

/-- The elements that are stored for an object fit a header. -/
structure WellFormed (K : Kind Obj Line) : Prop where
  ty_ne : K.ty ≠ 5
  size_eq_zero : ∀ o, K.size o = 0 ↔ o = K.empty
  rep_empty : K.Rep K.empty Fams.none
  /-- A family has at most one element for each of the object. -/
  bounded : ∀ o fams, K.Rep o fams → ∀ sub ∈ type_subs K.ty, ∃ ks : List Bytes,
    ks.length ≤ K.size o ∧ ∀ rest, fams sub rest ≠ none → rest ∈ ks

/-- What has to be shown of a type of collections. -/
structure Lawful (K : Kind Obj Line) : Prop extends K.WellFormed where
  le_grows : ∀ line n, n ≤ K.grows line n
  touches_keys : ∀ line db, ∀ key ∈ K.touches line db, key ∈ K.keys line
  spec : ∀ cx line n v db, (cx.readonly = true → K.reads line = true) →
    (∀ key ∈ K.keys line, key ≠ [] ∧ K.Holds n v key (db key)) →
    K.Drawn line (K.found cx v db) → K.grows line n < 2 ^ 63 →
    (K.exec cx line).wp (fun r w => ∃ out, K.Means cx line (K.found cx v db) out.1 out.2 ∧
      K.Post cx (K.grows line n) v (K.touches line (K.found cx v db)) out w r) v

/-! ## Objects -/

theorem Holds.mono (h : K.Holds n v key o) (hn : n ≤ n') : K.Holds n' v key o :=
  ⟨h.1, h.2.trans hn⟩

theorem Holds.congr (h : K.Holds n v key o) (hsame : ∀ k, Owns K.ty key k → v' k = v k) :
    K.Holds n v' key o := by
  obtain ⟨⟨fams, hat, hrep⟩, hn⟩ := h
  exact ⟨⟨fams, hat.congr hsame, hrep⟩, hn⟩

theorem WellFormed.holds_empty (hK : K.WellFormed) (h : CollAt K.ty v key 0 Fams.none) :
    K.Holds n v key K.empty := by
  have hzero : K.size K.empty = 0 := (hK.size_eq_zero _).mpr rfl
  refine ⟨⟨Fams.none, ?_, hK.rep_empty⟩, ?_⟩
  · rw [hzero]
    exact h
  · rw [hzero]
    exact Nat.zero_le n

/-- A key without elements is gone, and nothing of it is left. -/
theorem WellFormed.vanishes (hK : K.WellFormed) (h : K.Holds n v key o) :
    (v (kv key) = none ↔ o = K.empty) ∧ (o = K.empty → ∀ k, Owns K.ty key k → v k = none) := by
  obtain ⟨⟨fams, hat, _⟩, _⟩ := h
  refine ⟨hat.kv_eq_none.trans (hK.size_eq_zero o), fun hempty => ?_⟩
  rw [(hK.size_eq_zero o).mpr hempty] at hat
  exact hat.nothing

/-! ## Loading and storing -/

theorem dead_of_absent (h : v (expk key) = none) : dead cx v key = false := by
  unfold dead
  rw [h]
  rfl

/-- An object is found where it is stored, or nothing is, and then nothing is left. -/
theorem WellFormed.wp_found (hK : K.WellFormed) (hkey : key ≠ []) (hn : n < 2 ^ 63)
    {db : Bytes → Obj} (h : K.Holds n v key (db key)) {g : Option (Meta × Option UInt64) → R γ}
    (hgone : ∀ v', K.found cx v db key = K.empty → (cx.readonly = true → v' = v) →
      (cx.readonly = false → K.Holds n v' key K.empty ∧ SameElse K.ty key v v' ∧
        dead cx v' key = false) → (g none).wp Q v')
    (hthere : ∀ m fams, K.found cx v db key = db key → dead cx v key = false →
      K.size (db key) ≠ 0 → CollAt K.ty v key (K.size (db key)) fams → K.Rep (db key) fams →
      IsMeta K.ty (K.size (db key)) m → (g (some (m, deadlineOf (v (expk key))))).wp Q v) :
    (cx.coll key K.ty >>= g).wp Q v := by
  obtain ⟨⟨fams, hat, hrep⟩, hsize⟩ := h
  refine wp_coll (fun _ => hkey) (by omega) hat (fun v' hor hread hwrite => ?_)
    fun m hne halive hm => ?_
  · refine hgone v' ?_ hread fun hw => ?_
    · unfold Kind.found
      rcases hor with hzero | hdead
      · split
        · rfl
        · exact (hK.size_eq_zero _).mp hzero
      · exact if_pos hdead
    · obtain ⟨hnil, hsame⟩ := hwrite hw
      exact ⟨hK.holds_empty hnil, hsame, dead_of_absent (hnil.absent rfl).2⟩
  · refine hthere m fams ?_ halive hne hat hrep hm
    unfold Kind.found
    rw [halive]
    rfl

end Kind

/-- `coll_or_new`: the header of a collection, of a new one if the key is absent. -/
def coll_or_new (cx : Ctx) (key : Bytes) (ty : UInt8) : R (Meta × Option UInt64) := do
  let e ← cx.coll key ty
  pure (e.getD (Meta.new ty, none))

namespace Kind

variable {Obj Line γ : Type} {K : Kind Obj Line} {cx : Ctx} {n n' : Nat} {key : Bytes}
  {v v' : View} {o : Obj} {Q : Except Resp γ → View → Prop}

/-- Before a write, the object that is found is stored, be it a new one. -/
theorem WellFormed.wp_new (hK : K.WellFormed) (hw : cx.readonly = false) (hkey : key ≠ [])
    (hn : n < 2 ^ 63) {db : Bytes → Obj} (h : K.Holds n v key (db key))
    {g : Meta × Option UInt64 → R γ}
    (hg : ∀ v' m fams, CollAt K.ty v' key (K.size (K.found cx v db key)) fams →
      K.Rep (K.found cx v db key) fams → IsMeta K.ty (K.size (K.found cx v db key)) m →
      K.size (K.found cx v db key) ≤ n → SameElse K.ty key v v' → dead cx v' key = false →
      (g (m, deadlineOf (v' (expk key)))).wp Q v') :
    (coll_or_new cx key K.ty >>= g).wp Q v := by
  unfold coll_or_new
  rw [bind_assoc]
  refine hK.wp_found hkey hn h (fun v' hempty _ hwrite => ?_)
    fun m fams hfound halive hne hat hrep hm => ?_
  · obtain ⟨⟨⟨fams, hat, hrep⟩, hsize⟩, hsame, halive⟩ := hwrite hw
    have hzero : K.size K.empty = 0 := (hK.size_eq_zero _).mpr rfl
    have hexp : v' (expk key) = none := by
      rw [hzero] at hat
      exact (hat.absent rfl).2
    have hgo := hg v' (Meta.new K.ty) fams
    rw [hempty, hzero] at hgo
    rw [hzero] at hat
    have hgo := hgo hat hrep (isMeta_new K.ty) (Nat.zero_le n) hsame halive
    rw [hexp] at hgo
    exact hgo
  · have hgo := hg v m fams
    rw [hfound] at hgo
    exact hgo hat hrep hm h.2 (SameElse.refl K.ty key v) halive

/-- The object is stored with its header. -/
theorem WellFormed.wp_save (hK : K.WellFormed) {m : Meta} {fams : Fams} {v₀ : View}
    (hm : IsMeta K.ty (K.size o) m) (hchanged : OnlyElems K.ty key v₀ v)
    (helems : Elems K.ty v key fams) (hrep : K.Rep o fams) (hn : K.size o ≤ n) (hn' : n < 2 ^ 63)
    (hdeadline : Deadline v₀ key) {g : Unit → R γ}
    (hg : ∀ v', K.Holds n v' key o → SameElse K.ty key v₀ v' → Later key v₀ v' → (g ()).wp Q v') :
    (put_meta key m (deadlineOf (v₀ (expk key))) >>= g).wp Q v :=
  wp_put_meta hK.ty_ne (by omega) hm hchanged helems (hK.bounded o fams hrep) hdeadline
    fun v' hat hsame hlater => hg v' ⟨⟨fams, hat, hrep⟩, hn⟩ hsame hlater

/-! ## Commands on one key -/

/-- What a command on one key answers and leaves. -/
def Does (K : Kind Obj Line) (cx : Ctx) (n : Nat) (v : View) (key : Bytes) (out : Resp × Obj)
    (r : Except Resp Resp) (w : View) : Prop :=
  (out.1.isError = true ∧ r = .error out.1) ∨
    (out.1.isError = false ∧ r = .ok out.1 ∧
      (cx.readonly = false → K.Holds n w key out.2 ∧ SameElse K.ty key v w))

theorem Post.answered {keys : List Bytes} {reply : Resp} {db : Bytes → Obj} {w : View}
    (hok : reply.isError = false)
    (hholds : cx.readonly = false → ∀ key ∈ keys, K.Holds n w key (db key))
    (hsame : cx.readonly = false → ∀ k, (∀ key ∈ keys, ¬ Owns K.ty key k) → w k = v k) :
    K.Post cx n v keys (reply, db) w (.ok reply) := Post.done hok hholds hsame

theorem Does.post {out : Resp × Obj} {db : Bytes → Obj} {r : Except Resp Resp} {w : View}
    (h : K.Does cx n v key out r w) (hdb : db key = out.2) :
    K.Post cx n v [key] (out.1, db) w r := by
  rcases h with ⟨herr, rfl⟩ | ⟨hok, rfl, hleft⟩
  · exact Post.refused herr
  · refine Post.answered hok (fun hw key' hkey => ?_) fun hw k hk => ?_
    · rw [List.mem_singleton.mp hkey, hdb]
      exact (hleft hw).1
    · exact (hleft hw).2 k (hk key (List.mem_singleton_self key))

/-- A command that only reads what it finds. -/
theorem WellFormed.wp_read (hK : K.WellFormed) (hkey : key ≠ []) (hn : n < 2 ^ 63)
    {db : Bytes → Obj} (h : K.Holds n v key (db key)) {reply : Obj → Resp}
    (hok : ∀ o, (reply o).isError = false)
    {g : Option (Meta × Option UInt64) → R Resp} (hnone : g none = pure (reply K.empty))
    (hsome : ∀ m ttl fams, Elems K.ty v key fams → K.Rep (db key) fams →
      IsMeta K.ty (K.size (db key)) m →
      (g (some (m, ttl))).wp (fun r w => r = .ok (reply (db key)) ∧ w = v) v) :
    (cx.coll key K.ty >>= g).wp
      (K.Does cx n v key (reply (K.found cx v db key), K.found cx v db key)) v := by
  refine hK.wp_found hkey hn h (fun v' hempty _ hwrite => ?_)
    fun m fams hfound halive hne hat hrep hm => ?_
  · rw [hnone, hempty]
    exact .inr ⟨hok _, rfl, fun hw => ⟨(hwrite hw).1, (hwrite hw).2.1⟩⟩
  · rw [hfound]
    refine R.wp_mono (hsome m _ fams hat.elements hrep hm) ?_
    rintro r w ⟨rfl, rfl⟩
    exact .inr ⟨hok _, rfl, fun _ => ⟨h, SameElse.refl K.ty key w⟩⟩

/-! ## Commands on several keys -/

/-- Where a command stands that has loaded some of its keys: it still finds what it found at
first, and what it has loaded is stored. -/
structure Loaded (K : Kind Obj Line) (cx : Ctx) (n : Nat) (keys : List Bytes) (found : Bytes → Obj)
    (v₀ : View) (done : List Bytes) (v : View) : Prop where
  stands : ∃ db, (∀ key ∈ keys, K.Holds n v key (db key)) ∧
    ∀ key ∈ keys, K.found cx v db key = found key
  loaded : cx.readonly = false → ∀ key ∈ done, K.Holds n v key (found key)
  same : cx.readonly = false → ∀ k, (∀ key ∈ done, ¬ Owns K.ty key k) → v k = v₀ k

theorem loaded_start {keys : List Bytes} {db : Bytes → Obj}
    (h : ∀ key ∈ keys, K.Holds n v key (db key)) :
    K.Loaded cx n keys (K.found cx v db) v [] v where
  stands := ⟨db, h, fun _ _ => rfl⟩
  loaded := fun _ _ hkey => absurd hkey List.not_mem_nil
  same := fun _ _ _ => rfl

section Loading

variable {keys done : List Bytes} {found : Bytes → Obj} {v₀ : View}

/-- A key that is stored as it was found. -/
theorem Loaded.insert (h : K.Loaded cx n keys found v₀ done v)
    (hholds : cx.readonly = false → K.Holds n v key (found key)) :
    K.Loaded cx n keys found v₀ (key :: done) v where
  stands := h.stands
  loaded := by
    intro hw key' hkey'
    rcases List.mem_cons.mp hkey' with rfl | hkey'
    · exact hholds hw
    · exact h.loaded hw key' hkey'
  same := fun hw k hk => h.same hw k fun key' hkey' => hk key' (List.mem_cons_of_mem _ hkey')

theorem dead_congr (h : v' (expk key) = v (expk key)) : dead cx v' key = dead cx v key := by
  unfold dead
  rw [h]

/-- A key whose object was gone. -/
theorem Loaded.purge (h : K.Loaded cx n keys found v₀ done v)
    (hempty : found key = K.empty) (hholds : K.Holds n v' key K.empty)
    (hsame : SameElse K.ty key v v') (halive : dead cx v' key = false) :
    K.Loaded cx n keys found v₀ (key :: done) v' where
  stands := by
    obtain ⟨db, hdb, hfound⟩ := h.stands
    refine ⟨Function.update db key K.empty, fun key' hkey' => ?_, fun key' hkey' => ?_⟩
    · by_cases hne : key' = key
      · rw [hne, Function.update_self]
        exact hholds
      · rw [Function.update_of_ne hne]
        exact (hdb key' hkey').congr fun k hk => hsame k (not_owns_of_ne hne hk)
    · unfold Kind.found
      by_cases hne : key' = key
      · rw [hne, Function.update_self, halive, hempty]
        rfl
      · rw [Function.update_of_ne hne, ← hfound key' hkey']
        rw [dead_congr (hsame _ (not_owns_of_ne hne (.inr (.inl rfl))))]
        rfl
  loaded := by
    intro hw key' hkey'
    by_cases hne : key' = key
    · rw [hne, hempty]
      exact hholds
    · exact (h.loaded hw key' ((List.mem_cons.mp hkey').resolve_left hne)).congr
        fun k hk => hsame k (not_owns_of_ne hne hk)
  same := by
    intro hw k hk
    rw [hsame k (hk key List.mem_cons_self)]
    exact h.same hw k fun key' hkey' => hk key' (List.mem_cons_of_mem _ hkey')

/-- The next key is loaded. -/
theorem WellFormed.wp_next (hK : K.WellFormed) (hn : n < 2 ^ 63)
    (h : K.Loaded cx n keys found v₀ done v) (hmem : key ∈ keys) (hkey : key ≠ [])
    {g : Option (Meta × Option UInt64) → R γ}
    (hgone : ∀ v', found key = K.empty → K.Loaded cx n keys found v₀ (key :: done) v' →
      (cx.readonly = false → SameElse K.ty key v v') → (g none).wp Q v')
    (hthere : ∀ m fams, found key ≠ K.empty → dead cx v key = false →
      CollAt K.ty v key (K.size (found key)) fams → K.Rep (found key) fams →
      IsMeta K.ty (K.size (found key)) m → K.size (found key) ≤ n →
      K.Loaded cx n keys found v₀ (key :: done) v →
      (g (some (m, deadlineOf (v (expk key))))).wp Q v) :
    (cx.coll key K.ty >>= g).wp Q v := by
  obtain ⟨db, hdb, hfound⟩ := h.stands
  have hholds := hdb key hmem
  refine hK.wp_found hkey hn hholds (fun v' hempty hread hwrite => ?_)
    fun m fams hthis halive hne hat hrep hm => ?_
  · rw [hfound key hmem] at hempty
    refine hgone v' hempty ?_ fun hw => (hwrite hw).2.1
    cases hr : cx.readonly with
    | true =>
        rw [hread hr]
        exact h.insert fun hw => absurd (hr.symm.trans hw) (by decide)
    | false =>
        obtain ⟨hleft, hsame, halive⟩ := hwrite hr
        exact h.purge hempty hleft hsame halive
  · rw [hfound key hmem] at hthis
    rw [← hthis] at hne hat hrep hm hholds
    refine hthere m fams (fun hempty => hne ((hK.size_eq_zero _).mpr hempty)) halive hat hrep hm
      hholds.2 (h.insert fun _ => hholds)

/-- All keys are as they were found. -/
theorem Loaded.post {reply : Resp} (h : K.Loaded cx n keys found v₀ done v)
    (hok : reply.isError = false) (hdone : ∀ key, key ∈ done ↔ key ∈ keys) :
    K.Post cx n v₀ keys (reply, found) v (.ok reply) :=
  .answered hok (fun hw key hkey => h.loaded hw key ((hdone key).mpr hkey)) fun hw k hk =>
    h.same hw k fun key hkey => hk key ((hdone key).mp hkey)

end Loading

/-! ## Runs -/

/-- One command that was served: the view it found and the view it left. -/
structure Served (Line : Type) where
  now : UInt64
  readonly : Bool
  line : Line
  before : View
  reply : Resp
  after : View

namespace Served

variable {s : Served Line}

def context (fmt : UInt64 → Bytes) (s : Served Line) : Ctx :=
  { now := s.now, readonly := s.readonly, fmt_f64 := fmt }

def cmd (K : Kind Obj Line) (fmt : UInt64 → Bytes) (s : Served Line) : Cmd Resp :=
  (K.exec (s.context fmt) s.line).exec

/-- How a command is served: on the commit path behind the writes of its queue, taken
whole or not at all; or, when it is one that only reads, on a snapshot. -/
inductive Valid (K : Kind Obj Line) (fmt : UInt64 → Bytes) (s : Served Line) : Prop
  | commit (core : FlushCore) (overlay writes : ValueMap) (hwrite : s.readonly = false)
      (hbefore : s.before = viewOf core overlay (.of writes))
      (hreply : s.reply = ((s.cmd K fmt).taken core overlay writes).answer)
      (hafter : s.after =
        viewOf core overlay (.of ((s.cmd K fmt).taken core overlay writes).writes))
  | snapshot (core : FlushCore) (t : Txn) (hread : s.readonly = true)
      (hname : K.reads s.line = true) (hbefore : s.before = t.value core)
      (hreply : s.reply = (runTxn core ((s.cmd K fmt).toOp []) t).1.1)
      (hafter : s.after = s.before)

/-- The keys of a command are some that a run is about, and its draws suffice whatever is
stored there. -/
structure Safe (K : Kind Obj Line) (fmt : UInt64 → Bytes) (objs : Set Bytes) (s : Served Line) :
    Prop where
  keys : ∀ key ∈ K.keys s.line, key ∈ objs ∧ key ≠ []
  drawn : ∀ n db, (∀ key ∈ K.keys s.line, K.Holds n s.before key (db key)) →
    K.Drawn s.line (K.found (s.context fmt) s.before db)

/-- What a served command means: an error changes nothing, and neither does a snapshot. -/
def Means (K : Kind Obj Line) (fmt : UInt64 → Bytes) (s : Served Line) (db db' : Bytes → Obj) :
    Prop :=
  let found := K.found (s.context fmt) s.before db
  ∃ out, K.Means (s.context fmt) s.line found s.reply out ∧
    db' = if s.reply.isError ∨ s.readonly then db
      else fun key => if key ∈ K.touches s.line found then out key else db key

end Served

/-- One command after the other; between them, nothing of the objects is touched. -/
def Chain (K : Kind Obj Line) (objs : Set Bytes) : View → List (Served Line) → View → Prop
  | v, [], w => ∀ key ∈ objs, ∀ k, Owns K.ty key k → w k = v k
  | v, s :: ss, w =>
      (∀ key ∈ objs, ∀ k, Owns K.ty key k → s.before k = v k) ∧ Chain K objs s.after ss w

/-- How large objects may become over a run. -/
def bound (K : Kind Obj Line) : List (Served Line) → Nat → Nat
  | [], n => n
  | s :: ss, n => bound K ss (K.grows s.line n)

/-- What a run means. -/
def Meaning (K : Kind Obj Line) (fmt : UInt64 → Bytes) :
    List (Served Line) → (Bytes → Obj) → (Bytes → Obj) → Prop
  | [], db, db' => db' = db
  | s :: ss, db, db' => ∃ mid, s.Means K fmt db mid ∧ Meaning K fmt ss mid db'

/-- The answer is one that is meant, and so is what a command that may write leaves. -/
theorem wp_answers {fmt : UInt64 → Bytes} {s : Served Line} {keys : List Bytes}
    {P : Resp × (Bytes → Obj) → Prop}
    (h : (K.exec (s.context fmt) s.line).wp
      (fun r w => ∃ out, P out ∧ K.Post (s.context fmt) n v keys out w r) v) :
    (s.cmd K fmt).wp (fun reply w => ∃ out, P out ∧ reply = out.1 ∧
      (out.1.isError = false → s.readonly = false →
        (∀ key ∈ keys, K.Holds n w key (out.2 key)) ∧
          ∀ k, (∀ key ∈ keys, ¬ Owns K.ty key k) → w k = v k)) v := by
  refine R.wp_exec (R.wp_mono h ?_)
  rintro r w ⟨out, hout, hpost⟩
  cases hpost with
  | refused herr => exact ⟨out, hout, rfl, fun hok => absurd (herr.symm.trans hok) (by decide)⟩
  | done hok hholds hsame => exact ⟨out, hout, rfl, fun _ hw => ⟨hholds hw, hsame hw⟩⟩

/-- One command: its answer is one that is meant, and so is what it leaves. -/
theorem Lawful.step (hK : K.Lawful) {fmt : UInt64 → Bytes} {objs : Set Bytes} {s : Served Line}
    {db : Bytes → Obj} (hvalid : s.Valid K fmt) (hsafe : s.Safe K fmt objs)
    (h : ∀ key ∈ objs, K.Holds n s.before key (db key)) (hn : K.grows s.line n < 2 ^ 63) :
    ∃ db', s.Means K fmt db db' ∧
      ∀ key ∈ objs, K.Holds (K.grows s.line n) s.after key (db' key) := by
  have hmono : ∀ key ∈ objs, K.Holds (K.grows s.line n) s.before key (db key) :=
    fun key hkey => (h key hkey).mono (hK.le_grows s.line n)
  have hfound : ∀ key ∈ K.keys s.line, key ≠ [] ∧ K.Holds n s.before key (db key) :=
    fun key hkey => ⟨(hsafe.keys key hkey).2, h key (hsafe.keys key hkey).1⟩
  have hspec := fun hread => wp_answers (hK.spec (s.context fmt) s.line n s.before db hread hfound
    (hsafe.drawn n db fun key hkey => (hfound key hkey).2) hn)
  have htouches := fun key hkey => (hsafe.keys key (hK.touches_keys s.line
    (K.found (s.context fmt) s.before db) key hkey)).1
  cases hvalid with
  | commit core overlay writes hwrite hbefore hreply hafter =>
      have hexec := hspec fun hr => absurd (hr.symm.trans hwrite) (by decide)
      rw [hbefore] at hexec
      obtain ⟨out, hmeans, hanswer, hleft⟩ := Cmd.wp_commit core overlay [] (.of writes) hexec
      rw [← hbefore] at hmeans hleft
      have hdid : ((s.cmd K fmt).did core overlay writes).answer = out.1 := hanswer
      have htaken : (s.cmd K fmt).taken core overlay writes =
          if out.1.isError then { answer := out.1, exp := [], writes := writes }
          else (s.cmd K fmt).did core overlay writes := by
        unfold Cmd.taken
        simp only [hdid]
      rw [htaken] at hreply hafter
      cases herr : out.1.isError with
      | true =>
          rw [herr, if_pos rfl] at hreply hafter
          refine ⟨db, ⟨out.2, ?_, ?_⟩, ?_⟩
          · rw [hreply]
            exact hmeans
          · rw [if_pos (.inl (by rw [hreply]; exact herr))]
          · rw [hafter, ← hbefore]
            exact hmono
      | false =>
          rw [herr, if_neg (by decide)] at hreply hafter
          rw [hdid] at hreply
          obtain ⟨hholds, hsame⟩ := hleft herr hwrite
          refine ⟨_, ⟨out.2, ?_, rfl⟩, fun key hkey => ?_⟩
          · rw [hreply]
            exact hmeans
          · rw [if_neg (by rw [hreply, herr, hwrite]; decide), hafter]
            by_cases htouch : key ∈ K.touches s.line (K.found (s.context fmt) s.before db)
            · rw [if_pos htouch]
              exact hholds key htouch
            · rw [if_neg htouch]
              refine (hmono key hkey).congr fun k hk => ?_
              refine hsame k fun key' hkey' => not_owns_of_ne ?_ hk
              rintro rfl
              exact htouch hkey'
  | snapshot core t hread hname hbefore hreply hafter =>
      have hexec := hspec fun _ => hname
      rw [hbefore] at hexec
      obtain ⟨out, hmeans, hanswer, -⟩ := Cmd.wp_snapshot core [] t hexec
      rw [← hbefore] at hmeans
      refine ⟨db, ⟨out.2, ?_, ?_⟩, ?_⟩
      · rw [hreply, hanswer]
        exact hmeans
      · rw [if_pos (.inr hread)]
      · rw [hafter]
        exact hmono

theorem Lawful.le_bound (hK : K.Lawful) (ss : List (Served Line)) (n : Nat) : n ≤ K.bound ss n := by
  induction ss generalizing n with
  | nil => exact le_rfl
  | cons s ss ih => exact (hK.le_grows s.line n).trans (ih _)

/-- An object is stored under a key, which is there exactly when it has elements. -/
structure Stored (K : Kind Obj Line) (v : View) (key : Bytes) (o : Obj) : Prop where
  holds : ∃ n < 2 ^ 63, K.Holds n v key o
  absent : v (kv key) = none ↔ o = K.empty
  nothing : o = K.empty → ∀ k, Owns K.ty key k → v k = none

/-- Over a run, answers and stored objects are those that are meant. -/
theorem Lawful.refines (hK : K.Lawful) {fmt : UInt64 → Bytes} {objs : Set Bytes}
    {ss : List (Served Line)} {v w : View} {db : Bytes → Obj} (hchain : Chain K objs v ss w)
    (hvalid : ∀ s ∈ ss, s.Valid K fmt) (hsafe : ∀ s ∈ ss, s.Safe K fmt objs)
    (h : ∀ key ∈ objs, K.Holds n v key (db key))
    (hn : K.bound ss n < 2 ^ 63) :
    ∃ db', Meaning K fmt ss db db' ∧ ∀ key ∈ objs, Stored K w key (db' key) := by
  induction ss generalizing v db n with
  | nil =>
      refine ⟨db, rfl, fun key hkey => ?_⟩
      have hholds := (h key hkey).congr (hchain key hkey)
      obtain ⟨habsent, hnothing⟩ := hK.vanishes hholds
      exact ⟨⟨n, hn, hholds⟩, habsent, hnothing⟩
  | cons s ss ih =>
      obtain ⟨hbefore, hrest⟩ := hchain
      obtain ⟨mid, hmeans, hleft⟩ := hK.step (hvalid s List.mem_cons_self)
        (hsafe s List.mem_cons_self) (fun key hkey => (h key hkey).congr (hbefore key hkey))
        ((hK.le_bound ss _).trans_lt hn)
      obtain ⟨db', hmeaning, hstored⟩ := ih hrest
        (fun s' hs' => hvalid s' (List.mem_cons_of_mem _ hs'))
        (fun s' hs' => hsafe s' (List.mem_cons_of_mem _ hs')) hleft hn
      exact ⟨db', ⟨mid, hmeans, hmeaning⟩, hstored⟩

/-! ## Queues -/

/-- A command on the commit path, behind the writes of its queue. -/
def serve (K : Kind Obj Line) (fmt : UInt64 → Bytes) (core : FlushCore)
    (overlay writes : ValueMap) (now : UInt64) (line : Line) : Served Line × ValueMap :=
  let cx : Ctx := { now := now, readonly := false, fmt_f64 := fmt }
  let d := (K.exec cx line).exec.taken core overlay writes
  ({ now := now, readonly := false, line := line
     before := viewOf core overlay (.of writes)
     reply := d.answer
     after := viewOf core overlay (.of d.writes) }, d.writes)

/-- The commands of one queue. -/
def serveAll (K : Kind Obj Line) (fmt : UInt64 → Bytes) (core : FlushCore) (overlay : ValueMap)
    (now : UInt64) : ValueMap → List Line → List (Served Line) × ValueMap
  | writes, [] => ([], writes)
  | writes, line :: lines =>
      let s := serve K fmt core overlay writes now line
      let rest := serveAll K fmt core overlay now s.2 lines
      (s.1 :: rest.1, rest.2)

/-- A queue is a run. -/
theorem serveAll_run (K : Kind Obj Line) (fmt : UInt64 → Bytes) (core : FlushCore)
    (overlay writes : ValueMap) (now : UInt64) (objs : Set Bytes) (lines : List Line) :
    (∀ s ∈ (serveAll K fmt core overlay now writes lines).1, s.Valid K fmt) ∧
      Chain K objs (viewOf core overlay (.of writes))
        (serveAll K fmt core overlay now writes lines).1
        (viewOf core overlay (.of (serveAll K fmt core overlay now writes lines).2)) ∧
      (serveAll K fmt core overlay now writes lines).1.map Served.line = lines := by
  induction lines generalizing writes with
  | nil => exact ⟨fun s hs => absurd hs List.not_mem_nil, fun _ _ _ _ => rfl, rfl⟩
  | cons line lines ih =>
      obtain ⟨hvalid, hchain, hlines⟩ := ih (serve K fmt core overlay writes now line).2
      refine ⟨fun s hs => ?_, ⟨fun _ _ _ _ => rfl, hchain⟩, congrArg (line :: ·) hlines⟩
      rcases List.mem_cons.mp hs with rfl | hs
      · exact .commit core overlay writes rfl rfl rfl rfl
      · exact hvalid s hs

theorem serveAll_line {K : Kind Obj Line} {fmt : UInt64 → Bytes} {core : FlushCore}
    {overlay writes : ValueMap} {now : UInt64} {lines : List Line} {s : Served Line}
    (hs : s ∈ (serveAll K fmt core overlay now writes lines).1) : s.line ∈ lines := by
  obtain ⟨_, _, hlines⟩ := serveAll_run K fmt core overlay writes now ∅ lines
  rw [← hlines]
  exact List.mem_map_of_mem hs

/-- Nothing is stored in an empty view. -/
theorem WellFormed.holds_absent (hK : K.WellFormed) {v : View} (h : ∀ k, v k = none) (key : Bytes) :
    K.Holds 0 v key K.empty := hK.holds_empty (collAt_none fun k _ => h k)

end Kind
end Coll
end StrikeDB
