import StrikeDB.Core

/-!
# StrikeDB: the sequential keyspace

What the store is for, without shards, versions or batches: a map from keys to
their newest write, changed by whole commits and by FLUSHALL, one after the
other.  A deleted key keeps the timestamp of its tombstone.

`Reflects` connects the chain of a key to its newest write.  A chain may be
missing because the key was never written or because its tombstone was
collected; both read as absent.

* `Reflects.push`: a push in timestamp order keeps the connection.
* `Reflects.pushAll`: so does a whole batch.
-/

namespace StrikeDB

/-- The newest write of every key, with its timestamp. -/
abbrev Keyspace := Std.ExtTreeMap Key (Nat × Value)

namespace Keyspace

def write (ks : Keyspace) (m : Mutation) : Keyspace := ks.insert m.key (m.ts, m.value)

/-- The mutations of one commit, in order. -/
def commit (ks : Keyspace) (muts : List Mutation) : Keyspace := muts.foldl write ks

/-- The value of a key: absent if never written, deleted or flushed. -/
def value (ks : Keyspace) (k : Key) : Option Value := ks[k]?.bind fun w => live w.2

theorem getElem?_write (ks : Keyspace) (m : Mutation) (k : Key) :
    (ks.write m)[k]? = if m.key = k then some (m.ts, m.value) else ks[k]? :=
  FlushCore.map_getElem?_insert ks m.key k (m.ts, m.value)

@[simp] theorem commit_nil (ks : Keyspace) : ks.commit [] = ks := rfl

@[simp] theorem commit_cons (ks : Keyspace) (m : Mutation) (muts : List Mutation) :
    ks.commit (m :: muts) = (ks.write m).commit muts := rfl

theorem commit_append (ks : Keyspace) (ms ms' : List Mutation) :
    ks.commit (ms ++ ms') = (ks.commit ms).commit ms' := by
  simp [commit]

/-- A commit leaves the keys that it does not write. -/
theorem getElem?_commit_of_not_mem
    {muts : List Mutation} {k : Key} (h : ∀ m ∈ muts, m.key ≠ k) (ks : Keyspace) :
    (ks.commit muts)[k]? = ks[k]? := by
  induction muts generalizing ks with
  | nil => rfl
  | cons m muts ih =>
      rw [commit_cons, ih fun x hx => h x (List.mem_cons_of_mem _ hx), getElem?_write,
        if_neg (h m (by simp))]

/-- A commit depends, at each key, only on what the key held before. -/
theorem getElem?_commit_congr
    {ks ks' : Keyspace} {k : Key} (h : ks[k]? = ks'[k]?) (muts : List Mutation) :
    (ks.commit muts)[k]? = (ks'.commit muts)[k]? := by
  induction muts generalizing ks ks' with
  | nil => exact h
  | cons m muts ih =>
      rw [commit_cons, commit_cons]
      refine ih ?_
      rw [getElem?_write, getElem?_write, h]

/-- A written key holds one of the mutations of the commit. -/
theorem getElem?_commit_of_mem
    {muts : List Mutation} {k : Key} (h : ∃ m ∈ muts, m.key = k) (ks : Keyspace) :
    ∃ m ∈ muts, m.key = k ∧ (ks.commit muts)[k]? = some (m.ts, m.value) := by
  induction muts generalizing ks with
  | nil => simp at h
  | cons a muts ih =>
      rw [commit_cons]
      by_cases hlater : ∃ b ∈ muts, b.key = k
      · obtain ⟨m, hm, hkey, heq⟩ := ih hlater (ks.write a)
        exact ⟨m, List.mem_cons_of_mem _ hm, hkey, heq⟩
      · have ha : a.key = k := by
          obtain ⟨m, hm, hk⟩ := h
          rcases List.mem_cons.mp hm with rfl | hm
          · exact hk
          · exact absurd ⟨m, hm, hk⟩ hlater
        refine ⟨a, by simp, ha, ?_⟩
        rw [getElem?_commit_of_not_mem fun b hb hk => hlater ⟨b, hb, hk⟩, getElem?_write,
          if_pos ha]

theorem value_congr {ks ks' : Keyspace} {k : Key} (h : ks[k]? = ks'[k]?) :
    ks.value k = ks'.value k := by
  rw [value, value, h]

end Keyspace

/-! ## Events -/

/-- What changes the keyspace: a commit or a FLUSHALL. -/
inductive Event where
  | commit (ts : Nat) (muts : List Mutation)
  | flush (ts : Nat)

namespace Event

def ts : Event → Nat
  | commit ts _ => ts
  | flush ts => ts

def apply (ks : Keyspace) : Event → Keyspace
  | commit _ muts => ks.commit muts
  | flush _ => ∅

/-- Does the event write this key? -/
def Writes (k : Key) : Event → Prop
  | commit _ muts => ∃ m ∈ muts, m.key = k
  | flush _ => False

def isFlush : Event → Bool
  | flush _ => true
  | commit _ _ => false

theorem getElem?_apply_of_not_writes
    {e : Event} {k : Key} (hw : ¬ e.Writes k) (hf : e.isFlush = false) (ks : Keyspace) :
    (e.apply ks)[k]? = ks[k]? := by
  cases e with
  | commit ts muts =>
      exact Keyspace.getElem?_commit_of_not_mem (fun m hm hk => hw ⟨m, hm, hk⟩) ks
  | flush ts => simp [isFlush] at hf

end Event

/-- The keyspace after a sequence of events. -/
def Keyspace.after (ks : Keyspace) (es : List Event) : Keyspace := es.foldl Event.apply ks

@[simp] theorem Keyspace.after_nil (ks : Keyspace) : ks.after [] = ks := rfl

@[simp] theorem Keyspace.after_cons (ks : Keyspace) (e : Event) (es : List Event) :
    ks.after (e :: es) = (e.apply ks).after es := rfl

theorem Keyspace.after_append (ks : Keyspace) (es es' : List Event) :
    ks.after (es ++ es') = (ks.after es).after es' := by
  simp [Keyspace.after]

theorem Keyspace.getElem?_after_of_not_writes
    {es : List Event} {k : Key} (hw : ∀ e ∈ es, ¬ e.Writes k)
    (hf : ∀ e ∈ es, e.isFlush = false) (ks : Keyspace) :
    (ks.after es)[k]? = ks[k]? := by
  induction es generalizing ks with
  | nil => rfl
  | cons e es ih =>
      rw [after_cons, ih (fun x hx => hw x (List.mem_cons_of_mem _ hx))
        (fun x hx => hf x (List.mem_cons_of_mem _ hx)),
        Event.getElem?_apply_of_not_writes (hw e (by simp)) (hf e (by simp))]

/-- What a key holds after some events is from the start or from one of them. -/
theorem Keyspace.after_holds
    {es : List Event} {k : Key} {P : Nat × Value → Prop}
    (hes : ∀ ts ms, Event.commit ts ms ∈ es → ∀ m ∈ ms, m.key = k → P (m.ts, m.value))
    (hflush : ∀ e ∈ es, e.isFlush = false) {ks : Keyspace}
    (hks : ∀ w, ks[k]? = some w → P w) :
    (∀ w, (ks.after es)[k]? = some w → P w) ∧
      (ks[k]? ≠ none ∨ (∃ e ∈ es, e.Writes k) → (ks.after es)[k]? ≠ none) := by
  induction es generalizing ks with
  | nil => exact ⟨hks, fun h => h.elim id fun ⟨_, he, _⟩ => absurd he List.not_mem_nil⟩
  | cons e es ih =>
      have hes' : ∀ ts ms, Event.commit ts ms ∈ es → ∀ m ∈ ms, m.key = k → P (m.ts, m.value) :=
        fun ts ms hmem => hes ts ms (List.mem_cons_of_mem _ hmem)
      have hflush' : ∀ e' ∈ es, e'.isFlush = false :=
        fun e' he' => hflush e' (List.mem_cons_of_mem _ he')
      rw [after_cons]
      by_cases hw : e.Writes k
      · cases e with
        | flush ts => exact hw.elim
        | commit ts ms =>
            obtain ⟨m, hm, hkey, heq⟩ := Keyspace.getElem?_commit_of_mem hw ks
            have heq : ((Event.commit ts ms).apply ks)[k]? = some (m.ts, m.value) := heq
            have hholds : ∀ w, ((Event.commit ts ms).apply ks)[k]? = some w → P w := by
              intro w hw
              rw [heq, Option.some.injEq] at hw
              exact hw ▸ hes ts ms List.mem_cons_self m hm hkey
            have hstep := ih hes' hflush' hholds
            refine ⟨hstep.1, fun _ => hstep.2 (Or.inl ?_)⟩
            rw [heq]
            exact Option.some_ne_none _
      · have hsame : (e.apply ks)[k]? = ks[k]? :=
          Event.getElem?_apply_of_not_writes hw (hflush e List.mem_cons_self) ks
        have hholds : ∀ w, (e.apply ks)[k]? = some w → P w := by
          rw [hsame]
          exact hks
        have hstep := ih hes' hflush' hholds
        refine ⟨hstep.1, fun h => hstep.2 ?_⟩
        rw [hsame]
        refine h.imp_right ?_
        rintro ⟨e', he', hwrites⟩
        rcases List.mem_cons.mp he' with rfl | he'
        · exact absurd hwrites hw
        · exact ⟨e', he', hwrites⟩

/-! ## Chains that reflect a newest write -/

/-- The chain of a key, if there is one, ends in the newest write of the key. -/
inductive Reflects : Option Chain → Option (Nat × Value) → Prop
  | chain {c : Chain} {v : Version} (wf : c.WF) (hlast : c.versions.getLast? = some v) :
      Reflects (some c) (some (v.ts, v.value))
  | never : Reflects none none
  | collected (ts : Nat) : Reflects none (some (ts, .tombstone))

namespace Reflects

theorem value {c : Option Chain} {n : Option (Nat × Value)} (h : Reflects c n) :
    c.bind Chain.latest = n.bind fun w => live w.2 := by
  cases h with
  | chain wf hlast => simp [Chain.latest, hlast]
  | never => rfl
  | collected ts => rfl

theorem wf {c : Chain} {n : Option (Nat × Value)} (h : Reflects (some c) n) : c.WF := by
  cases h with
  | chain wf hlast => exact wf

/-- The cached timestamp is that of the newest write. -/
theorem latest_ts {c : Chain} {n : Option (Nat × Value)} (h : Reflects (some c) n) :
    ∃ v, n = some (c.latest_ts, v) := by
  cases h with
  | chain wf hlast => exact ⟨_, by rw [wf.latest_ts_eq _ hlast]⟩

/-- Every version is at most as new as the newest write. -/
theorem version_le
    {c : Chain} {n : Option (Nat × Value)} (h : Reflects (some c) n)
    {v : Version} (hv : v ∈ c.versions) :
    v.ts ≤ c.latest_ts := by
  cases h with
  | chain wf hlast =>
      rw [wf.latest_ts_eq _ hlast]
      exact Chain.le_getLast? wf.sorted hlast v hv

/-- A snapshot that sees the newest version reads the newest value. -/
theorem visible
    {c : Chain} {n : Option (Nat × Value)} (h : Reflects (some c) n) {t : Nat}
    (hle : c.latest_ts ≤ t) :
    c.visible t = c.latest := by
  have hall : ∀ v ∈ c.versions, v.ts ≤ t := fun v hv => (h.version_le hv).trans hle
  have hup : upTo t c.versions = c.versions := by
    simp only [upTo, List.filter_eq_self, decide_eq_true_eq]
    exact hall
  simp only [Chain.visible, Chain.visibleVersion_eq, hup, Chain.latest]

/-- A chain without a live value ends in a tombstone. -/
theorem tombstone
    {c : Chain} {n : Option (Nat × Value)} (h : Reflects (some c) n)
    (hnone : c.latest = none) :
    n = some (c.latest_ts, .tombstone) := by
  cases h with
  | @chain _ v wf hlast =>
      simp only [Chain.latest, hlast, Option.bind_some, live] at hnone
      have hv : v.value = .tombstone := by
        cases hval : v.value <;> simp_all [Value.isLive]
      rw [wf.latest_ts_eq _ hlast, hv]

/-- Such a chain may be collected. -/
theorem collect
    {c : Chain} {n : Option (Nat × Value)} (h : Reflects (some c) n)
    (hnone : c.latest = none) :
    Reflects none n := by
  rw [h.tombstone hnone]
  exact .collected _

/-- A push that is not older than the newest write becomes the newest write. -/
theorem push
    {c : Option Chain} {n : Option (Nat × Value)} (h : Reflects c n)
    {ts : Nat} (hts : ∀ w, n = some w → w.1 ≤ ts) (value : Value) (active : List Nat) :
    Reflects (some ((c.getD Chain.default).push ts value active)) (some (ts, value)) := by
  have hle : ∀ w ∈ (c.getD Chain.default).versions, w.ts ≤ ts := by
    intro w hw
    cases h with
    | chain wf hlast =>
        exact (Chain.le_getLast? wf.sorted hlast w hw).trans (hts _ rfl)
    | never => simp [Chain.default] at hw
    | collected t => simp [Chain.default] at hw
  have hwf : (c.getD Chain.default).WF ∨ c.getD Chain.default = Chain.default := by
    cases h with
    | chain wf hlast => exact Or.inl wf
    | never => exact Or.inr rfl
    | collected t => exact Or.inr rfl
  exact .chain (v := ⟨ts, value⟩) (Chain.wf_push hwf ts value active)
    (Chain.push_newest hle value active)

/-- The pushes of a batch in timestamp order keep a chain connected. -/
theorem pushAll
    {active : List Nat} {k : Key} {muts : List Mutation}
    (hsorted : muts.Pairwise fun a b => a.ts ≤ b.ts)
    {c : Option Chain} {ks : Keyspace} (h : Reflects c ks[k]?)
    (hts : ∀ m ∈ muts, ∀ w, ks[k]? = some w → w.1 ≤ m.ts) :
    Reflects (FlushCore.pushAll active k c muts) (ks.commit muts)[k]? := by
  induction muts generalizing c ks with
  | nil => exact h
  | cons m muts ih =>
      rw [List.pairwise_cons] at hsorted
      rw [FlushCore.pushAll_cons, Keyspace.commit_cons]
      refine ih hsorted.2 ?_ ?_
      · rw [Keyspace.getElem?_write]
        by_cases hk : m.key = k
        · rw [if_pos hk, if_pos hk]
          exact h.push (hts m (by simp)) m.value active
        · rw [if_neg hk, if_neg hk]
          exact h
      · intro m' hm' w hw
        rw [Keyspace.getElem?_write] at hw
        by_cases hk : m.key = k
        · rw [if_pos hk] at hw
          cases hw
          exact hsorted.1 m' hm'
        · rw [if_neg hk] at hw
          exact hts m' (List.mem_cons_of_mem _ hm') w hw

end Reflects
end StrikeDB
