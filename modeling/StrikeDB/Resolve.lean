import StrikeDB.Store

/-!
# StrikeDB: resolving queued commits

`resolve` decides, for one commit of a drained batch, whether its read set still
holds and which mutations it writes; `resolveBatch` goes through a batch in
queue order with the overlay of the batch's earlier writes.
-/

namespace StrikeDB

/-- A commit waiting for the flusher.  (The `snapshot` field of the source is
dead code, and its reply slot is kept by the transition system.) -/
structure PendingWrite (ρ : Type) where
  ts : Nat
  muts : List Mutation
  reads : List (Key × Nat)
  incr : Option (Key × Int64)
  op : Option (Op ρ)
  flush_all : Option String

/-- Outcome of resolving one pending write; `out` is what an operation left in
the slot its closure captured. -/
inductive Resolved (ρ : Type) where
  | apply (muts : Option (List Mutation)) (value : Option Int64) (out : Option ρ)
  | conflict
  | opErr (msg : String)

def asciiDigit (b : UInt8) : Bool := 48 ≤ b && b ≤ 57

/-- The number that a string of decimal digits denotes. -/
def decimal (digits : Bytes) : Nat := digits.foldl (fun n b => 10 * n + (b.toNat - 48)) 0

/-- `i64::checked_add`, and the range check of `parse::<i64>`. -/
def checkedInt64 (i : Int) : Option Int64 :=
  if -2 ^ 63 ≤ i ∧ i < 2 ^ 63 then some (Int64.ofInt i) else none

/-- Parse an integer with Redis `string2ll` strictness. -/
def parse_strict_i64 (b : Bytes) : Option Int64 :=
  let digits := if b.head? = some 45 then b.drop 1 else b
  if digits = [] ∨ digits.length > 20 ∨ ¬ digits.all asciiDigit then none
  else if digits.head? = some 48 ∧ (digits.length > 1 ∨ b.length ≠ digits.length) then none
  else checkedInt64 (if b.head? = some 45 then -(decimal digits : Int) else decimal digits)

def notIntegerMsg : String := "value is not an integer or out of range"
def wrongTypeMsg : String := "WRONGTYPE Operation against a key holding the wrong kind of value"
def overflowMsg : String := "increment or decrement would overflow"

/-- Interpret a stored value as a counter. -/
def as_counter : Option Value → Except String Int64
  | none | some .tombstone => .ok 0
  | some (.int i) => .ok i
  | some (.bytes b) =>
      match parse_strict_i64 b with
      | some i => .ok i
      | none => .error notIntegerMsg
  | some _ => .error wrongTypeMsg

/-- The new value of a counter. -/
def incremented (cur : Except String Int64) (by_ : Int64) : Except String Int64 :=
  match cur with
  | .error e => .error e
  | .ok c =>
      match checkedInt64 (c.toInt + by_.toInt) with
      | some n => .ok n
      | none => .error overflowMsg

section Resolve

variable {ρ : Type}

/-- Was this read invalidated, by an earlier commit of the batch or by an
applied one? -/
def readConflicts (core : FlushCore) (overlay : ValueMap) (r : Key × Nat) : Bool :=
  decide (r.1 ∈ overlay) ||
    match core.chain r.1 with
    | none => false
    | some c => decide (c.latest_ts > r.2)

/-- The value an increment starts from. -/
def counterOf (core : FlushCore) (overlay : ValueMap) (key : Key) : Except String Int64 :=
  match overlay[key]? with
  | some v => as_counter (some v)
  | none => as_counter (core.latestValue key)

/-- The mutations of the writes an operation buffered, at its timestamp. -/
def opMuts (ts : Nat) (writes : ValueMap) : List Mutation :=
  writes.toList.map fun e => { key := e.1, value := e.2, ts := ts }

/-- Resolve `pw` against the shard maps plus `overlay`. -/
def resolve (core : FlushCore) (pw : PendingWrite ρ) (overlay : ValueMap) : Resolved ρ :=
  match pw.op with
  | some op =>
      let r := runOp core overlay op OpState.init
      .apply (some (opMuts pw.ts r.2.writes)) none (some r.1)
  | none =>
      if pw.reads.any (readConflicts core overlay) then .conflict
      else
        match pw.incr with
        | some (key, by_) =>
            match incremented (counterOf core overlay key) by_ with
            | .ok n => .apply (some [{ key := key, value := .int n, ts := pw.ts }]) (some n) none
            | .error e => .opErr e
        | none => .apply none none none

/-- The mutations that a resolved commit writes. -/
def Resolved.muts (pw : PendingWrite ρ) : Resolved ρ → Option (List Mutation)
  | .apply (some m) _ _ => some m
  | .apply none _ _ => some pw.muts
  | _ => none

/-- Does the batch hold a commit that looks at the overlay? -/
def needOverlay (batch : List (PendingWrite ρ)) : Bool :=
  batch.any fun pw => !pw.reads.isEmpty || pw.incr.isSome || pw.op.isSome

def overlayWith (overlay : ValueMap) (muts : List Mutation) : ValueMap :=
  muts.foldl (fun o m => o.insert m.key m.value) overlay

/-- The resolve loop: `none` stands for a FLUSHALL. -/
def resolveLoop (core : FlushCore) (need : Bool) :
    ValueMap → List (PendingWrite ρ) → List (Option (Resolved ρ))
  | _, [] => []
  | overlay, pw :: rest =>
      if pw.flush_all.isSome then none :: resolveLoop core need overlay rest
      else
        let r := resolve core pw overlay
        let overlay' :=
          if need then overlayWith overlay ((r.muts pw).getD []) else overlay
        some r :: resolveLoop core need overlay' rest

def resolveBatch (core : FlushCore) (batch : List (PendingWrite ρ)) :
    List (Option (Resolved ρ)) :=
  resolveLoop core (needOverlay batch) ∅ batch

/-- The mutation lists of the commits of a resolved batch, in order. -/
def batchMuts (batch : List (PendingWrite ρ)) (outcomes : List (Option (Resolved ρ))) :
    List (List Mutation) :=
  (batch.zip outcomes).filterMap fun e => e.2.bind fun r => r.muts e.1

/-- The frames of a resolved batch; a commit without mutations has none. -/
def batchFrames (batch : List (PendingWrite ρ)) (outcomes : List (Option (Resolved ρ))) :
    List Bytes :=
  ((batchMuts batch outcomes).filter fun m => !m.isEmpty).map commit_record

/-- Highest timestamp of a batch. -/
def batchMaxTs (batch : List (PendingWrite ρ)) : Nat :=
  (batch.map PendingWrite.ts).foldl max 0

/-! ### Outcomes of a batch -/

theorem opMuts_ts {ts : Nat} {writes : ValueMap} {m : Mutation} (hm : m ∈ opMuts ts writes) :
    m.ts = ts := by
  obtain ⟨e, _, rfl⟩ := List.mem_map.mp hm
  rfl

/-- Whatever a commit writes, it writes at its own timestamp. -/
theorem resolve_muts_ts
    {core : FlushCore} {pw : PendingWrite ρ} {overlay : ValueMap} {ms : List Mutation}
    (hpw : ∀ m ∈ pw.muts, m.ts = pw.ts)
    (h : (resolve core pw overlay).muts pw = some ms) :
    ∀ m ∈ ms, m.ts = pw.ts := by
  intro m hm
  unfold resolve at h
  cases hop : pw.op with
  | some op =>
      simp only [hop, Resolved.muts, Option.some.injEq] at h
      subst h
      exact opMuts_ts hm
  | none =>
      simp only [hop] at h
      split at h
      · simp [Resolved.muts] at h
      · cases hincr : pw.incr with
        | none =>
            simp only [hincr, Resolved.muts, Option.some.injEq] at h
            subst h
            exact hpw m hm
        | some e =>
            simp only [hincr] at h
            split at h
            · simp only [Resolved.muts, Option.some.injEq] at h
              subst h
              rw [List.mem_singleton] at hm
              rw [hm]
            · simp [Resolved.muts] at h

theorem resolveLoop_length (core : FlushCore) (need : Bool) (batch : List (PendingWrite ρ)) :
    ∀ overlay, (resolveLoop core need overlay batch).length = batch.length := by
  induction batch with
  | nil => intro overlay; rfl
  | cons pw rest ih =>
      intro overlay
      rw [resolveLoop]
      split <;> simp [ih]

/-- A FLUSHALL, and nothing else, has no outcome of its own. -/
theorem resolveLoop_none_iff (core : FlushCore) (need : Bool) (batch : List (PendingWrite ρ)) :
    ∀ overlay, ∀ e ∈ batch.zip (resolveLoop core need overlay batch),
      (e.2 = none ↔ e.1.flush_all.isSome = true) := by
  induction batch with
  | nil => intro overlay e he; simp [resolveLoop] at he
  | cons pw rest ih =>
      intro overlay e he
      rw [resolveLoop] at he
      split at he
      · next hf =>
          rw [List.zip_cons_cons, List.mem_cons] at he
          rcases he with rfl | he
          · simp [hf]
          · exact ih overlay e he
      · next hf =>
          rw [List.zip_cons_cons, List.mem_cons] at he
          rcases he with rfl | he
          · simp [hf]
          · exact ih _ e he

theorem resolveLoop_muts_ts
    {core : FlushCore} {need : Bool} {batch : List (PendingWrite ρ)}
    (hpw : ∀ pw ∈ batch, ∀ m ∈ pw.muts, m.ts = pw.ts) :
    ∀ overlay, ∀ e ∈ batch.zip (resolveLoop core need overlay batch), ∀ r ms,
      e.2 = some r → r.muts e.1 = some ms → ∀ m ∈ ms, m.ts = e.1.ts := by
  induction batch with
  | nil => intro overlay e he; simp [resolveLoop] at he
  | cons pw rest ih =>
      intro overlay e he r ms hr hms
      have ih := ih fun p hp => hpw p (List.mem_cons_of_mem _ hp)
      rw [resolveLoop] at he
      split at he
      · rw [List.zip_cons_cons, List.mem_cons] at he
        rcases he with rfl | he
        · simp at hr
        · exact ih overlay e he r ms hr hms
      · rw [List.zip_cons_cons, List.mem_cons] at he
        rcases he with rfl | he
        · simp only [Option.some.injEq] at hr
          subst hr
          exact resolve_muts_ts (hpw pw (by simp)) hms
        · exact ih _ e he r ms hr hms

/-! ### The overlay -/

/-- What the commits among these items write, with their timestamps. -/
def commitsOf (items : List (PendingWrite ρ × Option (Resolved ρ))) :
    List (Nat × List Mutation) :=
  items.filterMap fun e => (e.2.bind fun r => r.muts e.1).map fun m => (e.1.ts, m)

/-- The overlay behind the commits `pre`. -/
def overlayAt (core : FlushCore) (need : Bool) :
    ValueMap → List (PendingWrite ρ) → ValueMap
  | overlay, [] => overlay
  | overlay, pw :: rest =>
      if pw.flush_all.isSome then overlayAt core need overlay rest
      else
        overlayAt core need
          (if need then overlayWith overlay (((resolve core pw overlay).muts pw).getD [])
           else overlay) rest

theorem mem_overlayWith {overlay : ValueMap} {muts : List Mutation} {k : Key} :
    k ∈ overlayWith overlay muts ↔ k ∈ overlay ∨ ∃ m ∈ muts, m.key = k := by
  induction muts generalizing overlay with
  | nil => simp [overlayWith]
  | cons m muts ih =>
      have hstep : overlayWith overlay (m :: muts) =
          overlayWith (overlay.insert m.key m.value) muts := rfl
      rw [hstep, ih, Std.ExtTreeMap.mem_insert]
      simp only [Std.LawfulEqCmp.compare_eq_iff_eq, List.mem_cons, exists_eq_or_imp]
      tauto

/-- With an overlay, every key written by an earlier commit is in it. -/
theorem mem_overlayAt
    {core : FlushCore} {pre : List (PendingWrite ρ)} {k : Key} :
    ∀ {overlay : ValueMap}, (k ∈ overlay ∨
        ∃ c ∈ commitsOf (pre.zip (resolveLoop core true overlay pre)), ∃ m ∈ c.2, m.key = k) →
      k ∈ overlayAt core true overlay pre := by
  induction pre with
  | nil =>
      intro overlay h
      rcases h with h | ⟨c, hc, _⟩
      · exact h
      · simp [commitsOf, resolveLoop] at hc
  | cons pw pre ih =>
      intro overlay h
      rw [overlayAt]
      by_cases hf : pw.flush_all.isSome = true
      · rw [if_pos hf]
        refine ih ?_
        rcases h with h | ⟨c, hc, m, hm, hk⟩
        · exact Or.inl h
        · rw [resolveLoop, if_pos hf] at hc
          exact Or.inr ⟨c, by simpa [commitsOf] using hc, m, hm, hk⟩
      · rw [if_neg hf, if_pos rfl]
        refine ih ?_
        rw [mem_overlayWith]
        rcases h with h | ⟨c, hc, m, hm, hk⟩
        · exact Or.inl (Or.inl h)
        · rw [resolveLoop, if_neg hf] at hc
          simp only [commitsOf, List.zip_cons_cons, List.filterMap_cons, Option.bind_some,
            if_true] at hc
          cases hmuts : (resolve core pw overlay).muts pw with
          | none =>
              simp only [hmuts, Option.map_none] at hc
              exact Or.inr ⟨c, hc, m, hm, hk⟩
          | some ms =>
              simp only [hmuts, Option.map_some, List.mem_cons] at hc
              rcases hc with rfl | hc
              · exact Or.inl (Or.inr ⟨m, hm, hk⟩)
              · exact Or.inr ⟨c, hc, m, hm, hk⟩

/-- A commit that was not refused read nothing that changed. -/
theorem reads_valid_of_apply
    {core : FlushCore} {pw : PendingWrite ρ} {overlay : ValueMap} (hop : pw.op = none)
    {m : Option (List Mutation)} {v : Option Int64} {out : Option ρ}
    (h : resolve core pw overlay = .apply m v out) :
    ∀ r ∈ pw.reads, r.1 ∉ overlay ∧ ∀ c, core.chain r.1 = some c → c.latest_ts ≤ r.2 := by
  intro r hr
  unfold resolve at h
  simp only [hop] at h
  split at h
  · cases h
  · next hany =>
      have hno : readConflicts core overlay r = false := by
        by_contra hc
        exact hany (List.any_eq_true.mpr ⟨r, hr, by simpa using hc⟩)
      unfold readConflicts at hno
      rw [Bool.or_eq_false_iff, decide_eq_false_iff_not] at hno
      refine ⟨hno.1, ?_⟩
      intro c hc
      have := hno.2
      rw [hc] at this
      simpa using this

theorem commitsOf_append (xs ys : List (PendingWrite ρ × Option (Resolved ρ))) :
    commitsOf (xs ++ ys) = commitsOf xs ++ commitsOf ys :=
  List.filterMap_append

theorem mem_commitsOf
    {items : List (PendingWrite ρ × Option (Resolved ρ))} {c : Nat × List Mutation} :
    c ∈ commitsOf items ↔
      ∃ e ∈ items, (∃ r, e.2 = some r ∧ r.muts e.1 = some c.2) ∧ e.1.ts = c.1 := by
  obtain ⟨ts, ms⟩ := c
  simp only [commitsOf, List.mem_filterMap, Option.map_eq_some_iff, Option.bind_eq_some_iff,
    Prod.mk.injEq]
  constructor
  · rintro ⟨e, he, ms', ⟨r, hr, hms⟩, hts, rfl⟩
    exact ⟨e, he, ⟨r, hr, hms⟩, hts⟩
  · rintro ⟨e, he, ⟨r, hr, hms⟩, hts⟩
    exact ⟨e, he, ms, ⟨r, hr, hms⟩, hts, rfl⟩

/-- A commit was resolved behind the part of the batch that stands before it. -/
theorem resolveLoop_split
    {core : FlushCore} {need : Bool} {overlay : ValueMap} {batch : List (PendingWrite ρ)}
    {pw : PendingWrite ρ} {r : Resolved ρ}
    (h : (pw, some r) ∈ batch.zip (resolveLoop core need overlay batch)) :
    ∃ pre post, batch = pre ++ pw :: post ∧
      r = resolve core pw (overlayAt core need overlay pre) ∧
      ∃ later : List (PendingWrite ρ × Option (Resolved ρ)),
        batch.zip (resolveLoop core need overlay batch) =
          pre.zip (resolveLoop core need overlay pre) ++ (pw, some r) :: later ∧
        ∀ e ∈ later, e.1 ∈ post := by
  induction batch generalizing overlay with
  | nil => simp [resolveLoop] at h
  | cons p batch ih =>
      by_cases hf : p.flush_all.isSome = true
      · simp only [resolveLoop, if_pos hf, List.zip_cons_cons, List.mem_cons] at h ⊢
        rcases h with heq | h
        · simp at heq
        · obtain ⟨pre, post, hbatch, hr, later, hzip, hlater⟩ := ih h
          refine ⟨p :: pre, post, by rw [hbatch, List.cons_append], ?_, later, ?_, hlater⟩
          · rw [overlayAt, if_pos hf]
            exact hr
          · rw [hzip, resolveLoop, if_pos hf, List.zip_cons_cons, List.cons_append]
      · simp only [resolveLoop, if_neg hf, List.zip_cons_cons, List.mem_cons] at h ⊢
        rcases h with heq | h
        · obtain ⟨rfl, hr⟩ := Prod.mk.inj heq
          rw [← hr]
          generalize resolveLoop core need _ batch = outcomes
          exact ⟨[], batch, rfl, Option.some.inj hr, batch.zip outcomes, rfl,
            fun e he => (List.of_mem_zip he).1⟩
        · obtain ⟨pre, post, hbatch, hr, later, hzip, hlater⟩ := ih h
          refine ⟨p :: pre, post, by rw [hbatch, List.cons_append], ?_, later, ?_, hlater⟩
          · rw [overlayAt, if_neg hf]
            exact hr
          · rw [hzip, resolveLoop, if_neg hf, List.zip_cons_cons, List.cons_append]

/-- What the overlay of a commit does not hold, no earlier commit of its batch
has written. -/
theorem not_written_before
    {core : FlushCore} {batch : List (PendingWrite ρ)}
    (hsorted : batch.Pairwise fun p q => p.ts < q.ts) (hneed : needOverlay batch = true)
    {pw : PendingWrite ρ} {r : Resolved ρ} {pre post : List (PendingWrite ρ)}
    (hbatch : batch = pre ++ pw :: post) {later : List (PendingWrite ρ × Option (Resolved ρ))}
    (hzip : batch.zip (resolveBatch core batch) =
      pre.zip (resolveLoop core (needOverlay batch) ∅ pre) ++ (pw, some r) :: later)
    (hlater : ∀ e ∈ later, e.1 ∈ post) {k : Key}
    (hk : k ∉ overlayAt core (needOverlay batch) ∅ pre) :
    ∀ c ∈ commitsOf (batch.zip (resolveBatch core batch)), c.1 < pw.ts → ∀ m ∈ c.2, m.key ≠ k := by
  intro c hc hlt m hm hkey
  rw [hzip, commitsOf_append, List.mem_append] at hc
  rcases hc with hc | hc
  · rw [hneed] at hc hk
    exact hk (mem_overlayAt (Or.inr ⟨c, hc, m, hm, hkey⟩))
  · -- the rest of the batch has later timestamps
    obtain ⟨e, he, _, hts⟩ := mem_commitsOf.mp hc
    rw [hbatch, List.pairwise_append, List.pairwise_cons] at hsorted
    rcases List.mem_cons.mp he with rfl | he
    · simp only at hts
      omega
    · have := hsorted.2.1.1 e.1 (hlater e he)
      omega

/-- A commit of the batch that was not refused read nothing that an applied
commit or an earlier one of its batch has changed. -/
theorem reads_of_apply
    {core : FlushCore} {batch : List (PendingWrite ρ)}
    (hsorted : batch.Pairwise fun p q => p.ts < q.ts)
    {pw : PendingWrite ρ} (hop : pw.op = none)
    {m : Option (List Mutation)} {v : Option Int64} {out : Option ρ}
    (h : (pw, some (.apply m v out)) ∈ batch.zip (resolveBatch core batch)) :
    ∀ r ∈ pw.reads, (∀ c, core.chain r.1 = some c → c.latest_ts ≤ r.2) ∧
      ∀ c ∈ commitsOf (batch.zip (resolveBatch core batch)), c.1 < pw.ts →
        ∀ m ∈ c.2, m.key ≠ r.1 := by
  obtain ⟨pre, post, hbatch, hr, later, hzip, hlater⟩ := resolveLoop_split h
  intro r hrmem
  have hneed : needOverlay batch = true := by
    refine List.any_eq_true.mpr ⟨pw, by rw [hbatch]; simp, ?_⟩
    have : pw.reads ≠ [] := List.ne_nil_of_mem hrmem
    simp [this]
  obtain ⟨hover, hchain⟩ := reads_valid_of_apply hop hr.symm r hrmem
  exact ⟨hchain, not_written_before hsorted hneed hbatch hzip hlater hover⟩

theorem foldl_max_le_iff (l : List Nat) (a n : Nat) :
    l.foldl max a ≤ n ↔ a ≤ n ∧ ∀ x ∈ l, x ≤ n := by
  induction l generalizing a with
  | nil => simp
  | cons x l ih =>
      rw [List.foldl_cons, ih, Nat.max_le, List.forall_mem_cons, and_assoc]

theorem batchMaxTs_le_iff (batch : List (PendingWrite ρ)) (n : Nat) :
    batchMaxTs batch ≤ n ↔ ∀ pw ∈ batch, pw.ts ≤ n := by
  simp [batchMaxTs, foldl_max_le_iff]

theorem le_batchMaxTs {batch : List (PendingWrite ρ)} {pw : PendingWrite ρ} (h : pw ∈ batch) :
    pw.ts ≤ batchMaxTs batch :=
  (batchMaxTs_le_iff batch _).mp le_rfl pw h

end Resolve
end StrikeDB
