import StrikeDB.Contexts

/-!
# StrikeDB: commands by what their scans see

A scan looks for committed keys in the shard of its hint only.  `Sight` has, beside the
view, what the scans with each hint see of it: everything in the shard of the hint, and
of the other shards only what is not applied to them yet.

**Results.**
* `Cmd.sees_commit`: what is shown of sights holds on the commit path.
* `Ctx.sees_each`: the pages of `each` visit what one unlimited scan sees.
* `Ctx.sees_deleteAll`: the keys that were found are gone, and no others.
-/

namespace StrikeDB

variable {α β : Type}

/-- The live value under every key, and what scans see of it by their hint. -/
structure Sight where
  view : View
  seen : Key → View

namespace Sight

def set (s : Sight) (k : Key) (x : Option Value) : Sight :=
  { view := s.view.set k x, seen := fun hint => (s.seen hint).set k x }

@[simp] theorem set_view (s : Sight) (k : Key) (x : Option Value) :
    (s.set k x).view = s.view.set k x := rfl

@[simp] theorem set_seen (s : Sight) (k : Key) (x : Option Value) (hint : Key) :
    (s.set k x).seen hint = (s.seen hint).set k x := rfl

/-- A scan sees no more than there is, and all of it in the shard of its hint. -/
structure Honest (s : Sight) : Prop where
  some : ∀ hint k x, s.seen hint k = some x → s.view k = some x
  shard : ∀ hint k, shard_of k = shard_of hint → s.seen hint k = s.view k

theorem Honest.set {s : Sight} (h : s.Honest) (k : Key) (x : Option Value) : (s.set k x).Honest where
  some := by
    intro hint k' y hy
    rw [set_seen] at hy
    rw [set_view]
    by_cases hk : k' = k
    · subst hk
      rw [View.set_self] at hy ⊢
      exact hy
    · rw [View.set_of_ne hk] at hy ⊢
      exact h.some hint k' y hy
  shard := by
    intro hint k' hshard
    rw [set_seen, set_view]
    by_cases hk : k' = k
    · subst hk
      rw [View.set_self, View.set_self]
    · rw [View.set_of_ne hk, View.set_of_ne hk]
      exact h.shard hint k' hshard

end Sight

namespace Cmd

/-- Run from the sight `s`, the command ends as `Q` says. -/
def sees : Cmd α → (α → Sight → Prop) → Sight → Prop
  | .ret r, Q, s => Q r s
  | .get key next, Q, s => (next (s.view key)).sees Q s
  | .put key value next, Q, s => next.sees Q (s.set key.val (live value))
  | .delete key next, Q, s => next.sees Q (s.set key.val none)
  | .scan_range hint start stop limit reverse next, Q, s =>
      ∀ l, Lists (s.seen hint) start stop l → (next ((inDirection reverse l).take limit)).sees Q s
  | .set_ttl key _ (some d) next, Q, s => next.sees Q (s.set (expk key) (some (.int d.toInt64)))
  | .set_ttl key (some _) none next, Q, s => next.sees Q (s.set (expk key) none)
  | .set_ttl _ none none next, Q, s => next.sees Q s

theorem sees_mono {c : Cmd α} {Q Q' : α → Sight → Prop} {s : Sight} (h : c.sees Q s)
    (hQ : ∀ r s, Q r s → Q' r s) : c.sees Q' s := by
  induction c generalizing s with
  | ret r => exact hQ _ _ h
  | get key next ih => exact ih _ h
  | put key value next ih => exact ih h
  | delete key next ih => exact ih h
  | scan_range hint start stop limit reverse next ih => exact fun l hl => ih _ (h l hl)
  | set_ttl key had at_ next ih =>
      cases at_ with
      | some d => exact ih h
      | none => cases had <;> exact ih h

/-- One command after another. -/
theorem sees_bind {c : Cmd α} {f : α → Cmd β} {Q : β → Sight → Prop} {s : Sight} :
    (c.bind f).sees Q s ↔ c.sees (fun r s => (f r).sees Q s) s := by
  induction c generalizing s with
  | ret r => rfl
  | get key next ih => exact ih _
  | put key value next ih => exact ih
  | delete key next ih => exact ih
  | scan_range hint start stop limit reverse next ih =>
      exact forall₂_congr fun _ _ => ih _
  | set_ttl key had at_ next ih =>
      cases at_ with
      | some d => exact ih
      | none => cases had <;> exact ih

end Cmd

/-! ## Sights of a store -/

/-- The committed keys of one shard. -/
def FlushCore.only (core : FlushCore) (i : Fin SHARD_COUNT) : FlushCore :=
  { core with shards := fun j => if j = i then core.shards j else ∅ }

/-- What an operation on the commit path reads, and what its scans see. -/
def sightOf (core : FlushCore) (overlay : ValueMap) (st : OpState) : Sight :=
  { view := viewOf core overlay st
    seen := fun hint => viewOf (core.only (shard_of hint)) overlay st }

theorem sightOf_write (core : FlushCore) (overlay : ValueMap) (st : OpState) (key : Key)
    (value : Value) :
    sightOf core overlay (st.write key value) = (sightOf core overlay st).set key (live value) := by
  simp only [sightOf, Sight.set, viewOf_write]

theorem FlushCore.chain_only (core : FlushCore) (i : Fin SHARD_COUNT) (k : Key) :
    (core.only i).chain k = if shard_of k = i then core.chain k else none := by
  unfold FlushCore.chain FlushCore.only
  by_cases hi : shard_of k = i
  · simp only [if_pos hi]
  · simp only [if_neg hi]
    exact Std.ExtTreeMap.getElem?_empty

theorem OpStore.pick_only {core : FlushCore} (hplaced : core.Placed) (overlay : ValueMap)
    (st : OpState) (hint start stop : Key) (reverse : Bool) (key : Key) :
    pick ((rangeOf reverse start stop st.writes).map fun e => (e.1, some e.2))
        ((rangeOf reverse start stop overlay).map fun e => (e.1, some e.2))
        ((rangeOf reverse start stop (core.shards (shard_of hint))).map fun e =>
          (e.1, e.2.latest)) key =
      if FlushCore.inRange start stop key then
        OpStore.get (core.only (shard_of hint)) overlay st key
      else none := by
  rw [pick, look_map_snd _ some, look_map_snd _ some, look_map_snd _ Chain.latest, look_rangeOf,
    look_rangeOf, look_rangeOf]
  by_cases hr : FlushCore.inRange start stop key = true
  · simp only [if_pos hr]
    rw [OpStore.get]
    cases st.writes[key]? with
    | some v => rfl
    | none =>
        cases overlay[key]? with
        | some v => rfl
        | none =>
            rw [FlushCore.latestValue, FlushCore.chain_only]
            by_cases hshard : shard_of key = shard_of hint
            · rw [if_pos hshard, FlushCore.chain, hshard]
              cases (core.shards (shard_of hint))[key]? with
              | none => rfl
              | some c => exact live_latest
            · rw [if_neg hshard]
              cases hc : (core.shards (shard_of hint))[key]? with
              | none => rfl
              | some c => exact absurd (hplaced _ _ _ hc).1 hshard
  · simp only [if_neg hr]
    rfl

/-- What is shown of sights holds on the commit path. -/
theorem Cmd.sees_commit {core : FlushCore} (hplaced : core.Placed) (overlay : ValueMap)
    {c : Cmd α} {Q : α → Sight → Prop} (exp : List Change) (st : OpState)
    (h : c.sees Q (sightOf core overlay st)) :
    Q (runOp core overlay (c.toOp exp) st).1.1
      (sightOf core overlay (runOp core overlay (c.toOp exp) st).2) := by
  induction c generalizing exp st with
  | ret r => exact h
  | get key next ih => exact ih _ exp st h
  | put key value next ih =>
      refine ih exp (st.write key.val value) ?_
      rw [sightOf_write]
      exact h
  | delete key next ih =>
      refine ih exp (st.write key.val .tombstone) ?_
      rw [sightOf_write]
      exact h
  | scan_range hint start stop limit reverse next ih =>
      obtain ⟨l, hl, hscan⟩ := OpStore.scan_of_pick core overlay st
        (OpStore.pick_only hplaced overlay st hint start stop)
      refine ih _ exp st ?_
      rw [hscan]
      exact h l hl
  | set_ttl key had at_ next ih =>
      cases at_ with
      | some d =>
          refine ih _ (st.write (expk key) (deadlineValue (some d))) ?_
          rw [sightOf_write]
          exact h
      | none =>
          cases had with
          | none => exact ih exp st h
          | some at_ =>
              refine ih _ (st.write (expk key) .tombstone) ?_
              rw [sightOf_write]
              exact h

theorem honest_sightOf (core : FlushCore) (overlay : ValueMap) (st : OpState) :
    (sightOf core overlay st).Honest where
  some := by
    intro hint k x hx
    simp only [sightOf, viewOf, OpStore.get] at hx ⊢
    cases hw : st.writes[k]? with
    | some v =>
        rw [hw] at hx
        exact hx
    | none =>
        rw [hw] at hx
        cases ho : overlay[k]? with
        | some v =>
            rw [ho] at hx
            exact hx
        | none =>
            rw [ho] at hx
            simp only [FlushCore.latestValue, FlushCore.chain_only] at hx ⊢
            split at hx
            · exact hx
            · cases hx
  shard := by
    intro hint k hshard
    simp only [sightOf, viewOf, OpStore.get, FlushCore.latestValue, FlushCore.chain_only,
      if_pos hshard]

/-! ## Programs that may fail -/

namespace R

def sees (m : R α) (Q : Except Resp α → Sight → Prop) (s : Sight) : Prop := Cmd.sees m.run Q s

/-- What is left to show after a part has ended. -/
def behind (f : α → R β) (Q : Except Resp β → Sight → Prop) : Except Resp α → Sight → Prop
  | .ok a, s => (f a).sees Q s
  | .error e, s => Q (.error e) s

theorem sees_mono {m : R α} {Q Q' : Except Resp α → Sight → Prop} {s : Sight} (h : m.sees Q s)
    (hQ : ∀ r s, Q r s → Q' r s) : m.sees Q' s := Cmd.sees_mono h hQ

@[simp] theorem sees_pure (a : α) (Q : Except Resp α → Sight → Prop) (s : Sight) :
    (pure a : R α).sees Q s ↔ Q (.ok a) s := Iff.rfl

@[simp] theorem sees_throw (e : Resp) (Q : Except Resp α → Sight → Prop) (s : Sight) :
    (throw e : R α).sees Q s ↔ Q (.error e) s := Iff.rfl

theorem sees_bind {m : R α} {f : α → R β} {Q : Except Resp β → Sight → Prop} {s : Sight} :
    (m >>= f).sees Q s ↔ m.sees (behind f Q) s := by
  unfold sees
  change (m.run.bind (ExceptT.bindCont f)).sees Q s ↔ _
  rw [Cmd.sees_bind]
  constructor
  · intro h
    exact Cmd.sees_mono h fun r s hr => by cases r <;> exact hr
  · intro h
    exact Cmd.sees_mono h fun r s hr => by cases r <;> exact hr

theorem sees_exec {m : R Resp} {Q : Resp → Sight → Prop} {s : Sight}
    (h : m.sees (fun r s => match r with | .ok r => Q r s | .error r => Q r s) s) :
    m.exec.sees Q s := by
  rw [exec, Cmd.sees_bind]
  exact Cmd.sees_mono h fun r s hr => by cases r <;> exact hr

end R

namespace Ctx

variable {γ : Type} {Q : Except Resp γ → Sight → Prop} {s : Sight}

theorem sees_get {key : Key} {f : Option Value → R γ} :
    (get key >>= f).sees Q s ↔ (f (s.view key)).sees Q s := by
  rw [R.sees_bind]
  rfl

theorem sees_put {key : PlainKey} {value : Value} {f : Unit → R γ} :
    (put key value >>= f).sees Q s ↔ (f ()).sees Q (s.set key.val (live value)) := by
  rw [R.sees_bind]
  rfl

theorem sees_delete {key : PlainKey} {f : Unit → R γ} :
    (delete key >>= f).sees Q s ↔ (f ()).sees Q (s.set key.val none) := by
  rw [R.sees_bind]
  rfl

theorem sees_scan_range {hint start stop : Key} {limit : Nat} {reverse : Bool}
    {f : List (Key × Value) → R γ} :
    (scan_range hint start stop limit reverse >>= f).sees Q s ↔
      ∀ l, Lists (s.seen hint) start stop l →
        (f ((inDirection reverse l).take limit)).sees Q s := by
  rw [R.sees_bind]
  rfl

/-- The pages of `each` visit what one unlimited scan sees, in order, until `f` stops. -/
theorem sees_each {σ : Type} (f : σ → Key → Value → σ × Bool) (reverse : Bool) (fuel : Nat)
    {hint start stop : Key} {l : List (Key × Value)} (hl : Lists (s.seen hint) start stop l)
    (hfuel : l.length < fuel) (st : σ) {g : σ → R γ}
    (h : (g (Elements.visit f st (inDirection reverse l)).1).sees Q s) :
    (each hint reverse f fuel start stop st >>= g).sees Q s := by
  induction fuel generalizing start stop l st with
  | zero => omega
  | succ fuel ih =>
      rw [each, bind_assoc, sees_scan_range]
      intro l' hl'
      obtain rfl := hl.unique hl'
      cases hlast : ((inDirection reverse l).take Elements.PAGE).getLast? with
      | none =>
          have hnil := List.getLast?_eq_none_iff.mp hlast
          have hempty : inDirection reverse l = [] := by
            rcases List.take_eq_nil_iff.mp hnil with hzero | hempty
            · exact absurd hzero (by decide)
            · exact hempty
          rw [hempty] at h
          exact h
      | some last =>
          have hsplit := Elements.visit_append f st ((inDirection reverse l).take Elements.PAGE)
            ((inDirection reverse l).drop Elements.PAGE)
          rw [List.take_append_drop] at hsplit
          rw [hsplit] at h
          simp only
          cases hvisit : Elements.visit f st ((inDirection reverse l).take Elements.PAGE) with
          | mk st' go =>
              rw [hvisit] at h
              cases go with
              | false => exact h
              | true =>
                  simp only at h ⊢
                  by_cases hfull : ((inDirection reverse l).take Elements.PAGE).length <
                      Elements.PAGE
                  · have hshort : (inDirection reverse l).length < Elements.PAGE := by
                      rw [List.length_take] at hfull
                      omega
                    rw [if_pos hfull]
                    rw [List.drop_of_length_le (Nat.le_of_lt hshort)] at h
                    exact h
                  · rw [if_neg hfull]
                    have hrest := Elements.lists_rest hl reverse hlast
                    have hless : (inDirection reverse
                        ((inDirection reverse l).drop Elements.PAGE)).length < fuel := by
                      have hpos : 0 < Elements.PAGE := by decide
                      rw [List.length_take, inDirection_length] at hfull
                      rw [inDirection_length, List.length_drop, inDirection_length]
                      omega
                    have hgo := ih hrest hless st'
                    rw [Elements.inDirection_inDirection] at hgo
                    cases reverse with
                    | false => exact hgo h
                    | true => exact hgo h

/-- The pages of `each`, whatever is there to be seen. -/
theorem sees_each_forall {σ : Type} (f : σ → Key → Value → σ × Bool) (reverse : Bool)
    {fuel : Nat} (hpos : fuel ≠ 0) {hint start stop : Key} (st : σ) {g : σ → R γ}
    (h : ∀ l, Lists (s.seen hint) start stop l →
      l.length < fuel ∧ (g (Elements.visit f st (inDirection reverse l)).1).sees Q s) :
    (each hint reverse f fuel start stop st >>= g).sees Q s := by
  by_cases hl : ∃ l, Lists (s.seen hint) start stop l
  · obtain ⟨l, hl⟩ := hl
    exact sees_each f reverse fuel hl (h l hl).1 st (h l hl).2
  · cases fuel with
    | zero => exact absurd rfl hpos
    | succ fuel =>
        rw [each, bind_assoc, sees_scan_range]
        exact fun l hl' => absurd ⟨l, hl'⟩ hl

/-- A sight without some keys. -/
def eraseSeen (s : Sight) (ks : List Key) : Sight :=
  { view := eraseKeys s.view ks, seen := fun hint => eraseKeys (s.seen hint) ks }

theorem eraseKeys_cons (v : View) (k : Key) (ks : List Key) :
    eraseKeys (v.set k none) ks = eraseKeys v (k :: ks) := by
  funext a
  unfold eraseKeys View.set
  by_cases hmem : a ∈ ks
  · rw [if_pos hmem, if_pos (List.mem_cons_of_mem _ hmem)]
  · by_cases ha : a = k
    · subst ha
      rw [if_neg hmem, if_pos List.mem_cons_self, Function.update_self]
    · rw [if_neg hmem, if_neg (by simp [ha, hmem]), Function.update_of_ne ha]

theorem eraseKeys_nil (v : View) : eraseKeys v [] = v := by
  funext k
  simp [eraseKeys]

/-- The keys that were found are gone, and no others. -/
theorem sees_deleteAll {ks : List Key} (hks : ∀ k ∈ ks, ¬ expPrefix <+: k) {g : Unit → R γ} :
    (deleteAll ks >>= g).sees Q s ↔ (g ()).sees Q (eraseSeen s ks) := by
  induction ks generalizing s with
  | nil =>
      have hsame : eraseSeen s [] = s := by
        simp only [eraseSeen, eraseKeys_nil]
      rw [hsame]
      rfl
  | cons k ks ih =>
      obtain ⟨hk, hrest⟩ := List.forall_mem_cons.mp hks
      obtain ⟨p, hp, hdelete⟩ : ∃ p : PlainKey, p.val = k ∧ deleteFound k = delete p :=
        ⟨⟨k, hk⟩, rfl, dif_neg hk⟩
      have hsame : eraseSeen (s.set k none) ks = eraseSeen s (k :: ks) := by
        simp only [eraseSeen, Sight.set, eraseKeys_cons]
      rw [deleteAll, hdelete, bind_assoc, sees_delete, ih hrest, hp, hsame]

end Ctx
end StrikeDB
