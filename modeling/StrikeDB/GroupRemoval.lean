import Mathlib.Data.Set.Card
import StrikeDB.GroupKeys

/-!
# StrikeDB: removing groups and consumers

XGROUP DESTROY deletes what lies between the beginning of a group's keys and that
beginning followed by `\xff\xff`.  IDs and names that themselves begin with two bytes
`\xff` are behind that end.

**Results.**
* `sees_destroy`: which keys XGROUP DESTROY deletes.
* `sees_delConsumer`: which keys XGROUP DELCONSUMER deletes, and what it counts.
* `puts_create`: XGROUP CREATE writes the header and the group.
* `removal_complete_iff`: when nothing of what was removed stays.
-/

namespace StrikeDB
namespace XGroup

open Ctx StrikeDB.Stream

/-! ## What a command stores -/

/-- The command stores nothing under the keys of `S`. -/
def Spares (S : Set Key) {α : Type} : StrikeDB.Cmd α → Prop
  | .ret _ => True
  | .get _ next => ∀ v, Spares S (next v)
  | .put key _ next => key.val ∉ S ∧ Spares S next
  | .delete _ next => Spares S next
  | .scan_range _ _ _ _ _ next => ∀ l, Spares S (next l)
  | .set_ttl key _ (some _) next => expk key ∉ S ∧ Spares S next
  | .set_ttl _ _ none next => Spares S next

section Spares

variable {S : Set Key} {α β : Type}

theorem Spares.bind {c : StrikeDB.Cmd α} {f : α → StrikeDB.Cmd β} (hc : Spares S c)
    (hf : ∀ a, Spares S (f a)) : Spares S (c.bind f) := by
  induction c with
  | ret r => exact hf r
  | get key next ih => exact fun v => ih v (hc v)
  | put key value next ih => exact ⟨hc.1, ih hc.2⟩
  | delete key next ih => exact ih hc
  | scan_range hint start stop limit reverse next ih => exact fun l => ih l (hc l)
  | set_ttl key had at_ next ih =>
      cases at_ with
      | some d => exact ⟨hc.1, ih hc.2⟩
      | none => exact ih hc

/-- Where nothing was and nothing is stored, nothing is. -/
theorem Spares.sees {c : StrikeDB.Cmd α} (hc : Spares S c) {s : Sight}
    (hs : ∀ k ∈ S, s.view k = none) : c.sees (fun _ t => ∀ k ∈ S, t.view k = none) s := by
  have hset : ∀ (s : Sight) (k : Key) (x : Option Value), (∀ k ∈ S, s.view k = none) →
      (k ∉ S ∨ x = none) → ∀ k' ∈ S, (s.set k x).view k' = none := by
    intro s k x hs hk k' hk'
    rw [Sight.set_view]
    by_cases heq : k' = k
    · subst heq
      rw [View.set_self]
      exact hk.resolve_left (not_not_intro hk')
    · rw [View.set_of_ne heq]
      exact hs k' hk'
  induction c generalizing s with
  | ret r => exact hs
  | get key next ih => exact ih _ (hc _) hs
  | put key value next ih => exact ih hc.2 (hset s _ _ hs (Or.inl hc.1))
  | delete key next ih => exact ih hc (hset s _ _ hs (Or.inr rfl))
  | scan_range hint start stop limit reverse next ih => exact fun l _ => ih _ (hc _) hs
  | set_ttl key had at_ next ih =>
      cases at_ with
      | some d => exact ih hc.2 (hset s _ _ hs (Or.inl hc.1))
      | none =>
          cases had with
          | some _ => exact ih hc (hset s _ _ hs (Or.inr rfl))
          | none => exact ih hc hs

/-- The same of a program that may fail. -/
def SparesR (S : Set Key) (m : R α) : Prop := Spares S m.run

theorem SparesR.bind {m : R α} {f : α → R β} (hm : SparesR S m) (hf : ∀ a, SparesR S (f a)) :
    SparesR S (m >>= f) := by
  refine Spares.bind hm fun r => ?_
  cases r with
  | ok a => exact hf a
  | error e => trivial

theorem SparesR.pure (a : α) : SparesR S (Pure.pure a : R α) := trivial
theorem SparesR.throw (e : Resp) : SparesR S (MonadExcept.throw e : R α) := trivial
theorem sparesR_get (key : Key) : SparesR S (get key) := fun _ => trivial
theorem sparesR_delete (key : PlainKey) : SparesR S (delete key) := trivial

theorem sparesR_put {key : PlainKey} (h : key.val ∉ S) (value : Value) : SparesR S (put key value) :=
  ⟨h, trivial⟩

theorem sparesR_scan_range (hint start stop : Key) (limit : Nat) (reverse : Bool) :
    SparesR S (scan_range hint start stop limit reverse) := fun _ => trivial

theorem sparesR_set_ttl_none (key : Bytes) (had : Option UInt64) : SparesR S (set_ttl key had none) :=
  trivial

theorem sparesR_deleteAll (ks : List Key) : SparesR S (Ctx.deleteAll ks) := by
  induction ks with
  | nil => exact .pure ()
  | cons k ks ih =>
      refine SparesR.bind ?_ fun _ => ih
      unfold deleteFound
      split
      · exact .pure ()
      · exact sparesR_delete _

theorem sparesR_delete_elements (key : Bytes) (subs : List UInt8) :
    SparesR S (Ctx.delete_elements key subs) := by
  induction subs with
  | nil => exact .pure ()
  | cons sub subs ih =>
      exact SparesR.bind (sparesR_scan_range _ _ _ _ _) fun l =>
        SparesR.bind (sparesR_deleteAll _) fun _ => ih

theorem sparesR_delete_all (key : Bytes) (e : Ctx.Entry) : SparesR S (Ctx.delete_all key e) := by
  have hrest : ∀ _ : Unit, SparesR S (do
      if e.exists_ then delete (.kv key)
      set_ttl key e.ttl none) := by
    intro _
    split
    · exact SparesR.bind (sparesR_delete _) fun _ => sparesR_set_ttl_none ..
    · exact sparesR_set_ttl_none ..
  unfold Ctx.delete_all
  cases e.ent with
  | absent => exact hrest ()
  | str b => exact hrest ()
  | coll m => exact SparesR.bind (sparesR_delete_elements _ _) hrest

theorem sparesR_coll (cx : Ctx) (key : Bytes) (ty : UInt8) : SparesR S (cx.coll key ty) := by
  have hload : SparesR S (cx.load key) := by
    unfold Ctx.load
    refine SparesR.bind (sparesR_get _) fun ttl => SparesR.bind (sparesR_get _) fun raw => ?_
    cases cx.entOf raw with
    | error e => exact .throw e
    | ok ent =>
        cases deadlineOf ttl with
        | none => exact .pure _
        | some d =>
            simp only
            split
            · split
              · exact .pure _
              · exact SparesR.bind (sparesR_delete_all ..) fun _ => .pure _
            · exact .pure _
  unfold Ctx.coll
  refine SparesR.bind hload fun e => ?_
  cases e.ent with
  | absent => exact .pure _
  | str b => exact .throw _
  | coll m =>
      simp only
      split
      · exact .pure _
      · exact .throw _

theorem sparesR_each {σ : Type} (hint : Key) (reverse : Bool) (f : σ → Key → Value → σ × Bool)
    (fuel : Nat) (start stop : Key) (st : σ) :
    SparesR S (Ctx.each hint reverse f fuel start stop st) := by
  induction fuel generalizing start stop st with
  | zero => exact .pure st
  | succ fuel ih =>
      rw [Ctx.each]
      refine SparesR.bind (sparesR_scan_range _ _ _ _ _) fun page => ?_
      cases page.getLast? with
      | none => exact .pure _
      | some last =>
          simp only
          split
          · exact .pure _
          · split
            · exact .pure _
            · split
              · exact ih _ _ _
              · exact ih _ _ _

theorem sparesR_ofExcept (x : Except Resp α) : SparesR S (ofExcept x) := by
  cases x with
  | ok a => exact .pure a
  | error e => exact .throw e

/-- XGROUP CREATE stores the header and the group. -/
theorem spares_create (cx : Ctx) {key g : Bytes} (hkv : kv key ∉ S)
    (hgroup : (group_key key g).val ∉ S) (id_arg : Bytes) (opts : List Bytes) :
    SparesR S (create cx key g id_arg opts) := by
  have hsave : ∀ s, SparesR S (save key s) := fun s =>
    SparesR.bind (sparesR_put hkv _) fun _ => .pure _
  have hestimate : ∀ s id, SparesR S (estimate_read key s id) := by
    intro s id
    unfold estimate_read
    split
    · exact .pure _
    · split
      · exact .pure _
      · split
        · exact .pure _
        · split
          · exact .pure _
          · refine SparesR.bind (sparesR_each ..) fun first => ?_
            simp only
            split
            · split
              · exact .pure _
              · split <;> exact .pure _
            · exact .pure _
  have hload : SparesR S (load cx key) := by
    refine SparesR.bind (sparesR_coll _ _ _) fun found => ?_
    cases found <;> exact .pure _
  have hend : ∀ (s : Head) (id : Id) (read : Int), SparesR S (do
      save_group key g { last := id, read := read }
      let _ ← save key s
      pure okResp) := fun s id read =>
    SparesR.bind (sparesR_put hgroup _) fun _ => SparesR.bind (hsave s) fun _ => .pure _
  have hrest : ∀ (explicit : Option Id) (read : Option Int) (s : Head),
      SparesR S (createGroup key g explicit read s) := by
    intro explicit read s
    refine SparesR.bind (SparesR.bind (sparesR_get _) fun _ => .pure _) fun found => ?_
    cases found with
    | some _ => exact .throw _
    | none =>
        cases read with
        | some read => exact hend s _ read
        | none => exact SparesR.bind (hestimate ..) fun read => hend s _ read
  unfold create
  refine SparesR.bind (sparesR_ofExcept _) fun opts => ?_
  refine SparesR.bind (sparesR_ofExcept _) fun explicit => ?_
  refine SparesR.bind hload fun found => ?_
  cases found with
  | some s => exact hrest explicit opts.2 s
  | none =>
      simp only
      split
      · exact SparesR.bind (hsave _) fun s => hrest explicit opts.2 s
      · exact .throw _

end Spares

/-! ## What the key holds -/

/-- The key holds a stream whose deadline has not passed, and the stream the group. -/
structure HasGroup (cx : Ctx) (v : View) (key g : Bytes) : Prop where
  header : ∃ m, cx.entOf (v (kv key)) = .ok (.coll m) ∧ m.ty = T_STREAM
  alive : ∀ d, deadlineOf (v (expk key)) = some d → cx.now < d
  group : v (group_key key g).val ≠ none
  /-- Nothing but IDs stands behind the group in the keys of its pending entries. -/
  ids : ∀ rest, v ((pelBase key g).val ++ rest) ≠ none → ∃ id, rest = id_bytes id

/-- There are fewer than `usize::MAX` keys. -/
def Small (v : View) : Prop :=
  ∀ l : List Key, l.Nodup → (∀ k ∈ l, v k ≠ none) → l.length < usize_max

theorem Small.mono {v w : View} (h : Small v) (hw : ∀ k, w k ≠ none → v k ≠ none) : Small w :=
  fun l hl hall => h l hl fun k hk => hw k (hall k hk)

theorem Small.lists {v w : View} (h : Small v) (hw : ∀ k, w k ≠ none → v k ≠ none)
    {start stop : Key} {l : List (Key × Value)} (hl : Lists w start stop l) :
    l.length < usize_max := by
  have hnodup : (l.map Prod.fst).Nodup := InOrder.nodup_keys (hl.sorted.inOrder false)
  have hlen := h.mono hw (l.map Prod.fst) hnodup (by
    intro k hk
    obtain ⟨e, he, rfl⟩ := List.mem_map.mp hk
    rw [((hl.mem e).mp he).2]
    exact Option.some_ne_none _)
  rwa [List.length_map] at hlen

section Programs

variable {γ : Type} {Q : Except Resp γ → Sight → Prop} {s : Sight} {cx : Ctx} {key g : Bytes}

theorem sees_load (h : HasGroup cx s.view key g) {f : Option Head → R γ}
    (hf : ∀ hd, (f (some hd)).sees Q s) : (load cx key >>= f).sees Q s := by
  obtain ⟨m, hm, hty⟩ := h.header
  have hcoll : ∀ ttl, (ttl = none ∨ ∃ d, ttl = some d ∧ cx.now < d) →
      ∀ {δ : Type} {Q' : Except Resp δ → Sight → Prop} {f' : Option (Meta × Option UInt64) → R δ},
        deadlineOf (s.view (expk key)) = ttl → (f' (some (m, ttl))).sees Q' s →
        (cx.coll key T_STREAM >>= f').sees Q' s := by
    intro ttl httl δ Q' f' hdead hf'
    rw [Ctx.coll, bind_assoc, Ctx.load, bind_assoc, sees_get, bind_assoc, sees_get, hm, hdead]
    simp only
    rcases httl with rfl | ⟨d, rfl, hd⟩
    · simp only [pure_bind, if_pos hty]
      exact hf'
    · simp only [if_neg (UInt64.not_le.mpr hd), pure_bind, if_pos hty]
      exact hf'
  rw [load, bind_assoc]
  refine hcoll (deadlineOf (s.view (expk key))) ?_ rfl ?_
  · cases hd : deadlineOf (s.view (expk key)) with
    | none => exact Or.inl rfl
    | some d => exact Or.inr ⟨d, rfl, h.alive d hd⟩
  · exact hf _

theorem sees_load_group (h : s.view (group_key key g).val ≠ none) {f : Option Group → R γ}
    (hf : ∀ gr, (f (some gr)).sees Q s) : (load_group key g >>= f).sees Q s := by
  rw [load_group, bind_assoc, sees_get, pure_bind]
  cases hv : s.view (group_key key g).val with
  | none => exact absurd hv h
  | some v => exact hf _

/-- The keys that a scan over a prefix finds. -/
def Found (s : Sight) (start k : Key) : Prop :=
  FlushCore.inRange start (start ++ [0xff, 0xff]) k = true ∧ s.seen start k ≠ none

theorem Found.starts {start k : Key} (h : Found s start k) : start <+: k :=
  prefix_of_inRange (List.prefix_refl _) (List.prefix_append _ _) h.1

theorem sees_delete_prefix (hhonest : s.Honest) (hsmall : Small s.view) {start : Key}
    (hplain : ∀ k, start <+: k → ¬ expPrefix <+: k) {f : Unit → R γ}
    (hf : ∀ ks, (∀ k, k ∈ ks ↔ Found s start k) → (f ()).sees Q (eraseSeen s ks)) :
    ( delete_prefix start >>= f).sees Q s := by
  rw [ delete_prefix, bind_assoc, sees_scan_range]
  intro l hl
  have hview : ∀ k, s.seen start k ≠ none → s.view k ≠ none := by
    intro k hk
    obtain ⟨x, hx⟩ := Option.ne_none_iff_exists'.mp hk
    rw [hhonest.some _ _ _ hx]
    exact Option.some_ne_none _
  have hall : (inDirection false l).take usize_max = l :=
    List.take_of_length_le (Nat.le_of_lt (hsmall.lists hview hl))
  have hks : ∀ k, k ∈ l.map Prod.fst ↔ Found s start k := by
    intro k
    rw [List.mem_map]
    constructor
    · rintro ⟨e, he, rfl⟩
      obtain ⟨hr, hx⟩ := (hl.mem e).mp he
      exact ⟨hr, by rw [hx]; exact Option.some_ne_none _⟩
    · rintro ⟨hr, hx⟩
      obtain ⟨x, hx⟩ := Option.ne_none_iff_exists'.mp hx
      exact ⟨(k, x), (hl.mem (k, x)).mpr ⟨hr, hx⟩, rfl⟩
  rw [hall, sees_deleteAll fun k hk => hplain k ((hks k).mp hk).starts]
  exact hf _ hks

theorem plain_pelBase {k : Key} (h : (pelBase key g).val <+: k) : ¬ expPrefix <+: k :=
  plain_of_family ((family_pelBase key g).trans h)

theorem plain_conBase {k : Key} (h : (conBase key g).val <+: k) : ¬ expPrefix <+: k :=
  plain_of_family ((family_conBase key g).trans h)

/-- The families of a stream have no key in common. -/
theorem group_key_not_pel (g' : Bytes) : ¬ (pelBase key g).val <+: (group_key key g').val := by
  intro h
  have := (Elements.family_disjoint ((family_pelBase key g).trans h) (family_group_key key g')).2
  exact absurd this (by decide)

theorem group_key_not_con (g' : Bytes) : ¬ (conBase key g).val <+: (group_key key g').val := by
  intro h
  have := (Elements.family_disjoint ((family_conBase key g).trans h) (family_group_key key g')).2
  exact absurd this (by decide)

theorem con_not_pel {k : Key} {g' : Bytes} (h : (conBase key g).val <+: k) :
    ¬ (pelBase key g').val <+: k := by
  intro h'
  have := (Elements.family_disjoint ((family_conBase key g).trans h)
    ((family_pelBase key g').trans h')).2
  exact absurd this (by decide)

theorem pel_ne_con (id : Id) (c : Bytes) : (pel_key key g id).val ≠ (con_key key g c).val := by
  intro heq
  have hcon : (conBase key g).val <+: (con_key key g c).val := ⟨c, (con_key_val key g c).symm⟩
  exact con_not_pel hcon ⟨id_bytes id, by rw [← pel_key_val, heq]⟩

/-- The keys that XGROUP DESTROY deletes. -/
def Destroyed (s : Sight) (key g : Bytes) (k : Key) : Prop :=
  k = (group_key key g).val ∨ Found s (pelBase key g).val k ∨ Found s (conBase key g).val k

/-- XGROUP DESTROY deletes the group and what its two scans find, and nothing else. -/
theorem sees_destroy (hhonest : s.Honest) (hsmall : Small s.view) (h : HasGroup cx s.view key g) :
    (destroy cx key g).sees (fun r t => r = .ok (.int 1) ∧
      (∀ k, Destroyed s key g k → t.view k = none) ∧
      ∀ k, ¬ Destroyed s key g k → t.view k = s.view k) s := by
  have herase : ∀ {v : View} {ks : List Key} {k : Key}, eraseKeys v ks k ≠ none → v k ≠ none := by
    intro v ks k hk hv
    unfold eraseKeys at hk
    split at hk
    · exact hk rfl
    · exact hk hv
  have hset : ∀ {v : View} {k k' : Key}, v.set k none k' ≠ none → v k' ≠ none := by
    intro v k k' hk hv
    by_cases heq : k' = k
    · subst heq
      exact hk (View.set_self ..)
    · rw [View.set_of_ne heq] at hk
      exact hk hv
  rw [destroy]
  refine sees_load h fun hd => ?_
  simp only
  refine sees_load_group h.group fun gr => ?_
  simp only
  rw [sees_delete]
  have hhonest₁ := hhonest.set (group_key key g).val none
  have hsmall₁ : Small (s.set (group_key key g).val none).view := hsmall.mono fun k hk => hset hk
  refine sees_delete_prefix hhonest₁ hsmall₁ (fun k => plain_pelBase) fun ks hks => ?_
  have hpels : ∀ k, k ∈ ks ↔ Found s (pelBase key g).val k := by
    intro k
    rw [hks]
    refine and_congr_right fun hr => ?_
    have hne : k ≠ (group_key key g).val := by
      rintro rfl
      exact group_key_not_pel g (prefix_of_inRange (List.prefix_refl _) (List.prefix_append _ _) hr)
    rw [Sight.set_seen, View.set_of_ne hne]
  have hhonest₂ : (eraseSeen (s.set (group_key key g).val none) ks).Honest := by
    constructor
    · intro hint k x hx
      simp only [eraseSeen, eraseKeys] at hx ⊢
      split at hx
      · cases hx
      · next hk =>
          rw [if_neg hk]
          exact hhonest₁.some hint k x hx
    · intro hint k hshard
      simp only [eraseSeen, eraseKeys, hhonest₁.shard hint k hshard]
  refine sees_delete_prefix hhonest₂ (hsmall₁.mono fun k hk => herase hk) (fun k => plain_conBase)
    fun ks' hks' => ?_
  have hcons : ∀ k, k ∈ ks' ↔ Found s (conBase key g).val k := by
    intro k
    rw [hks']
    refine and_congr_right fun hr => ?_
    have hstarts := prefix_of_inRange (List.prefix_refl _) (List.prefix_append _ _) hr
    have hne : k ≠ (group_key key g).val := by
      rintro rfl
      exact group_key_not_con g hstarts
    have hnot : k ∉ ks := fun hk => con_not_pel hstarts ((hpels k).mp hk).starts
    simp only [eraseSeen, eraseKeys, if_neg hnot, Sight.set_seen, View.set_of_ne hne]
  rw [R.sees_pure]
  refine ⟨rfl, ?_, ?_⟩
  · intro k hk
    simp only [eraseSeen, eraseKeys, Sight.set_view]
    rcases hk with rfl | hk | hk
    · split
      · rfl
      · split
        · rfl
        · exact View.set_self ..
    · rw [if_pos ((hpels k).mpr hk)]
      split <;> rfl
    · rw [if_pos ((hcons k).mpr hk)]
  · intro k hk
    obtain ⟨hgroup, hrest⟩ := not_or.mp hk
    obtain ⟨hpel, hcon⟩ := not_or.mp hrest
    simp only [eraseSeen, eraseKeys, Sight.set_view]
    rw [if_neg (mt (hcons k).mp hcon), if_neg (mt (hpels k).mp hpel), View.set_of_ne hgroup]

/-- The consumer whom a pending entry was delivered to. -/
def ownerIn (v : View) (key g : Bytes) (id : Id) : Option Bytes :=
  (v (pel_key key g id).val).map fun x => (Pel.dec (as_bytes x)).owner

theorem pel_key_injective {id id' : Id} (h : (pel_key key g id).val = (pel_key key g id').val) :
    id = id' := by
  rw [pel_key_val, pel_key_val] at h
  exact id_bytes_injective (List.append_cancel_left h)

theorem visit_all {σ : Type} (f : σ → Key → Value → σ) (st : σ) (l : List (Key × Value)) :
    (Elements.visit (fun st k v => (f st k v, true)) st l).1 =
      l.foldl (fun st e => f st e.1 e.2) st := by
  induction l generalizing st with
  | nil => rfl
  | cons e l ih => exact ih _

theorem foldl_kept {α β : Type} (keep : α → Bool) (f : α → β) (out : List β) (l : List α) :
    l.foldl (fun out a => if keep a then out ++ [f a] else out) out =
      out ++ (l.filter keep).map f := by
  induction l generalizing out with
  | nil => simp
  | cons a l ih =>
      rw [List.foldl_cons, ih]
      by_cases ha : keep a = true <;> simp [ha]

/-- The pending entries of a consumer that a scan finds. -/
structure Pending (s : Sight) (key g c : Bytes) (pend : List (Id × Pel)) : Prop where
  nodup : (pend.map Prod.fst).Nodup
  mem : ∀ id, id ∈ pend.map Prod.fst ↔ ownerIn (s.seen (pelBase key g).val) key g id = some c

theorem sees_pel_range (hhonest : s.Honest) (hsmall : Small s.view)
    (h : HasGroup cx s.view key g) {c : Bytes} {f : List (Id × Pel) → R γ}
    (hf : ∀ pend, Pending s key g c pend → (f pend).sees Q s) :
    (pel_range key g ID_MIN ID_MAX (fun p => p.owner == c) >>= f).sees Q s := by
  have hview : ∀ k, s.seen (pelBase key g).val k ≠ none → s.view k ≠ none := by
    intro k hk
    obtain ⟨x, hx⟩ := Option.ne_none_iff_exists'.mp hk
    rw [hhonest.some _ _ _ hx]
    exact Option.some_ne_none _
  rw [pel_range, if_neg (by decide)]
  refine sees_each_forall _ _ (by decide) _ fun l hl => ⟨hsmall.lists hview hl, ?_⟩
  rw [visit_all, foldl_kept (fun e : Key × Value => (Pel.dec (as_bytes e.2)).owner == c)
    fun e : Key × Value =>
      (id_from (e.1.drop (pelBase key g).val.length), Pel.dec (as_bytes e.2))]
  have hids : ∀ e ∈ l, ∃ id, e.1 = (pel_key key g id).val ∧
      id_from (e.1.drop (pelBase key g).val.length) = id := by
    intro e he
    obtain ⟨hr, hx⟩ := (hl.mem e).mp he
    rw [pel_key_val, pel_key_val] at hr
    have hstarts : (pelBase key g).val <+: e.1 :=
      prefix_of_inRange ⟨_, rfl⟩ ⟨_, (List.append_assoc _ _ _).symm⟩ hr
    obtain ⟨rest, hrest⟩ := hstarts
    obtain ⟨id, rfl⟩ := h.ids rest (by
      rw [hrest]
      exact hview e.1 (by rw [hx]; exact Option.some_ne_none _))
    refine ⟨id, by rw [pel_key_val, hrest], ?_⟩
    rw [← hrest, List.drop_left, id_from_id_bytes]
  refine hf _ ⟨?_, ?_⟩
  · have hnodup : (l.map Prod.fst).Nodup := InOrder.nodup_keys (hl.sorted.inOrder false)
    simp only [inDirection, Bool.false_eq_true, if_false, List.nil_append, List.map_map]
    refine (List.Nodup.of_map Prod.fst hnodup).filter _ |>.map_on ?_
    intro e he e' he' heq
    obtain ⟨id, hid, hfrom⟩ := hids e (List.mem_filter.mp he).1
    obtain ⟨id', hid', hfrom'⟩ := hids e' (List.mem_filter.mp he').1
    have hsame : id = id' := by
      rw [← hfrom, ← hfrom']
      exact heq
    refine List.inj_on_of_nodup_map hnodup (List.mem_filter.mp he).1 (List.mem_filter.mp he').1 ?_
    rw [hid, hid', hsame]
  · intro id
    simp only [inDirection, Bool.false_eq_true, if_false, List.nil_append, List.map_map,
      List.mem_map, List.mem_filter, beq_iff_eq, Function.comp_apply]
    constructor
    · rintro ⟨e, ⟨he, howner⟩, rfl⟩
      obtain ⟨id, hid, hfrom⟩ := hids e he
      rw [hfrom, ownerIn, ← hid, ((hl.mem e).mp he).2, Option.map_some, howner]
    · intro howner
      obtain ⟨x, hx, hdec⟩ := Option.map_eq_some_iff.mp howner
      have hmem : ((pel_key key g id).val, x) ∈ l := by
        refine (hl.mem _).mpr ⟨?_, hx⟩
        rw [pel_key_val, pel_key_val, pel_key_val]
        exact inRange_ids _ id
      obtain ⟨id', hid', hfrom⟩ := hids _ hmem
      exact ⟨_, ⟨hmem, hdec⟩, hfrom.trans (pel_key_injective hid').symm⟩

theorem sees_deletePels {pend : List (Id × Pel)} {f : Unit → R γ} :
    (deletePels key g pend >>= f).sees Q s ↔
      (f ()).sees Q (eraseSeen s (pend.map fun e => (pel_key key g e.1).val)) := by
  induction pend generalizing s with
  | nil =>
      have hsame : eraseSeen s [] = s := by
        simp only [eraseSeen, eraseKeys_nil]
      rw [List.map_nil, hsame]
      rfl
  | cons e pend ih =>
      have hsame : ∀ ks, eraseSeen (s.set (pel_key key g e.1).val none) ks =
          eraseSeen s ((pel_key key g e.1).val :: ks) := by
        intro ks
        simp only [eraseSeen, Sight.set, eraseKeys_cons]
      obtain ⟨id, p⟩ := e
      rw [deletePels, bind_assoc, sees_delete, ih, hsame]
      rfl

theorem sees_load_con {c : Bytes} {f : Option (UInt64 × Int) → R γ}
    (hnone : s.view (con_key key g c).val = none → (f none).sees Q s)
    (hsome : s.view (con_key key g c).val ≠ none → ∀ con, (f (some con)).sees Q s) :
    (load_con key g c >>= f).sees Q s := by
  rw [load_con, bind_assoc, sees_get, pure_bind]
  cases hv : s.view (con_key key g c).val with
  | none => exact hnone hv
  | some v => exact hsome (by rw [hv]; exact Option.some_ne_none _) _

/-- XGROUP DELCONSUMER deletes a consumer and the entries of his that its scan finds, and
answers with their number. -/
theorem sees_delConsumer (hhonest : s.Honest) (hsmall : Small s.view)
    (h : HasGroup cx s.view key g) {c : Bytes} (hcon : s.view (con_key key g c).val ≠ none) :
    (consumer cx false key g c).sees (fun r t => ∃ pend, Pending s key g c pend ∧
      r = .ok (.int (.ofNat pend.length)) ∧ t.view (con_key key g c).val = none ∧
      (∀ id ∈ pend.map Prod.fst, t.view (pel_key key g id).val = none) ∧
      ∀ k, k ≠ (con_key key g c).val → (∀ id ∈ pend.map Prod.fst, k ≠ (pel_key key g id).val) →
        t.view k = s.view k) s := by
  rw [consumer]
  refine sees_load h fun hd => ?_
  simp only
  refine sees_load_group h.group fun gr => ?_
  simp only
  refine sees_load_con (fun hnone => absurd hnone hcon) fun _ con => ?_
  simp only [Bool.false_eq_true, if_false]
  refine sees_pel_range hhonest hsmall h fun pend hpend => ?_
  rw [sees_deletePels, sees_delete, R.sees_pure]
  refine ⟨pend, hpend, rfl, View.set_self .., ?_, ?_⟩
  · intro id hid
    obtain ⟨e, he, rfl⟩ := List.mem_map.mp hid
    rw [Sight.set_view, View.set_of_ne (pel_ne_con _ _)]
    exact if_pos (List.mem_map.mpr ⟨e, he, rfl⟩)
  · intro k hcon hpel
    rw [Sight.set_view, View.set_of_ne hcon]
    refine if_neg fun hmem => ?_
    obtain ⟨e, he, rfl⟩ := List.mem_map.mp hmem
    exact hpel e.1 (List.mem_map.mpr ⟨e, he, rfl⟩) rfl

/-- Of a consumer that is not there nothing is deleted. -/
theorem sees_delConsumer_absent (h : HasGroup cx s.view key g) {c : Bytes}
    (hcon : s.view (con_key key g c).val = none) :
    (consumer cx false key g c).sees (fun r t => r = .ok (.int 0) ∧ t.view = s.view) s := by
  rw [consumer]
  refine sees_load h fun hd => ?_
  simp only
  refine sees_load_group h.group fun gr => ?_
  simp only
  exact sees_load_con (fun _ => ⟨rfl, rfl⟩) fun hsome => absurd hcon hsome

end Programs

/-! ## Commands -/

/-- What a command answers, and the view that it leaves. -/
def outcome (cx : Ctx) (a : List Bytes) (core : FlushCore) (overlay writes : ValueMap) :
    Resp × View :=
  let d := (xgroup cx a).exec.taken core overlay writes
  (d.answer, viewOf core overlay (.of d.writes))

section Outcomes

variable {core : FlushCore} {overlay writes : ValueMap} {cx : Ctx}

/-- What is shown of sights holds of a command whose answer is no error. -/
theorem outcome_of_sees (hplaced : core.Placed) {a : List Bytes} {P : Except Resp Resp → View → Prop}
    (h : (xgroup cx a).sees (fun r t => P r t.view) (sightOf core overlay (.of writes)))
    (hok : ∀ r w, P r w → ∃ x, r = .ok x ∧ x.isError = false) :
    P (.ok (outcome cx a core overlay writes).1) (outcome cx a core overlay writes).2 := by
  have hexec : ((xgroup cx a).exec).sees (fun r t => P (.ok r) t.view)
      (sightOf core overlay (.of writes)) := by
    refine R.sees_exec (R.sees_mono h ?_)
    intro r t hr
    obtain ⟨x, rfl, _⟩ := hok r t.view hr
    exact hr
  have hrun := Cmd.sees_commit hplaced overlay [] (.of writes) hexec
  obtain ⟨x, hx, hno⟩ := hok _ _ hrun
  have hdid : (xgroup cx a).exec.taken core overlay writes =
      (xgroup cx a).exec.did core overlay writes := by
    unfold Cmd.taken
    have hanswer : ((xgroup cx a).exec.did core overlay writes).answer.isError = false := by
      rw [← Except.ok.inj hx] at hno
      exact hno
    simp only [hanswer, Bool.false_eq_true, if_false]
  unfold outcome
  rw [hdid]
  exact hrun

theorem findSub_word (sub : Sub) : findSub (utf8 sub.word) = some sub := by
  have hword : (findSub (utf8 sub.word)).map Sub.word = some sub.word := by
    cases sub <;> decide +kernel
  obtain ⟨sub', hfind, heq⟩ := Option.map_eq_some_iff.mp hword
  have hsame : sub' = sub := by
    cases sub <;> cases sub' <;> first | rfl | exact absurd heq (by decide)
  rw [hfind, hsame]

theorem not_help (sub : Sub) : isWord (utf8 sub.word) "HELP" = false := by
  cases sub <;> decide +kernel

theorem parse_word (sub : Sub) {key g : Bytes} {rest : List Bytes}
    (h : sub.arity rest.length = true) :
    parseGroupCmd (utf8 sub.word :: key :: g :: rest) =
      .ok { sub := sub, key := key, g := g, rest := rest } := by
  simp [parseGroupCmd, findSub_word, not_help, h]

theorem xgroup_destroy (key g : Bytes) :
    xgroup cx [utf8 Sub.destroy.word, key, g] = destroy cx key g := by
  rw [xgroup, parse_word .destroy rfl]

theorem xgroup_delConsumer (key g c : Bytes) :
    xgroup cx [utf8 Sub.delConsumer.word, key, g, c] = consumer cx false key g c := by
  rw [xgroup, parse_word .delConsumer rfl]

theorem xgroup_create (key g id_arg : Bytes) (opts : List Bytes) :
    xgroup cx (utf8 Sub.create.word :: key :: g :: id_arg :: opts) = create cx key g id_arg opts := by
  rw [xgroup, parse_word .create (by simp [Sub.arity])]

/-- The pending IDs of a group. -/
def pending (v : View) (key g : Bytes) : Set Id := {id | v (pel_key key g id).val ≠ none}

/-- Nothing is stored of the group. -/
structure Gone (w : View) (key g : Bytes) : Prop where
  group : w (group_key key g).val = none
  pels : pending w key g = ∅
  cons : ∀ c, w (con_key key g c).val = none

/-- What is stored of the group is the same. -/
structure Untouched (v w : View) (key g : Bytes) : Prop where
  group : w (group_key key g).val = v (group_key key g).val
  pels : ∀ id, w (pel_key key g id).val = v (pel_key key g id).val
  cons : ∀ c, w (con_key key g c).val = v (con_key key g c).val

/-- The keys that belong to a group. -/
def OfGroup (key g : Bytes) (k : Key) : Prop :=
  k = (group_key key g).val ∨ (pelBase key g).val <+: k ∨ (conBase key g).val <+: k

/-- A scan with this hint sees the key. -/
def Reached (core : FlushCore) (overlay writes : ValueMap) (hint k : Key) : Prop :=
  (sightOf core overlay (.of writes)).seen hint k ≠ none

/-- Under a user key that is not empty every element is seen. -/
theorem reached_of_ne_nil {key : Bytes} (hkey : key ≠ []) {hint k : Key}
    (hhint : Elements.tagged key <+: hint) (hk : Elements.tagged key <+: k)
    (hv : viewOf core overlay (.of writes) k ≠ none) : Reached core overlay writes hint k := by
  have hshard : shard_of k = shard_of hint := by
    rw [Elements.shard_of_tagged hkey hk, Elements.shard_of_tagged hkey hhint]
  unfold Reached
  rw [(honest_sightOf core overlay (.of writes)).shard hint k hshard]
  exact hv

theorem ofGroup_family {key g : Bytes} {k : Key} (h : OfGroup key g k) :
    (k = (group_key key g).val ∧ ebase key SUB_XGRP <+: k) ∨
      ((pelBase key g).val <+: k ∧ ebase key SUB_XPEL <+: k) ∨
      ((conBase key g).val <+: k ∧ ebase key SUB_XCON <+: k) := by
  rcases h with rfl | h | h
  · exact Or.inl ⟨rfl, family_group_key key g⟩
  · exact Or.inr (Or.inl ⟨h, (family_pelBase key g).trans h⟩)
  · exact Or.inr (Or.inr ⟨h, (family_conBase key g).trans h⟩)

/-- A key belongs to one group. -/
theorem ofGroup_inj {key g key' g' : Bytes} (hg : g.length < 2 ^ 32) (hg' : g'.length < 2 ^ 32)
    {k : Key} (hk : OfGroup key' g' k) (h : OfGroup key g k) : (key', g') = (key, g) := by
  have hparts : ∀ {sub : UInt8}, ebase key sub ++ group_part g <+: k →
      ebase key sub ++ group_part g' <+: k → g' = g := by
    intro sub hr hr'
    rcases List.prefix_or_prefix_of_prefix hr hr' with h | h
    · have hpart : group_part g <+: group_part g' := (List.prefix_append_right_inj _).mp h
      exact (group_part_apart hg hg' (hpart.trans (List.prefix_append _ []))).symm
    · have hpart : group_part g' <+: group_part g := (List.prefix_append_right_inj _).mp h
      exact group_part_apart hg' hg (hpart.trans (List.prefix_append _ []))
  rcases ofGroup_family h with ⟨heq, hf⟩ | ⟨hb, hf⟩ | ⟨hb, hf⟩ <;>
    rcases ofGroup_family hk with ⟨heq', hf'⟩ | ⟨hb', hf'⟩ | ⟨hb', hf'⟩ <;>
    obtain ⟨rfl, hsub⟩ := Elements.family_disjoint hf' hf
  · rw [heq] at heq'
    rw [Elements.ekey_injective heq']
  · exact absurd hsub (by decide)
  · exact absurd hsub (by decide)
  · exact absurd hsub (by decide)
  · rw [hparts hb hb']
  · exact absurd hsub (by decide)
  · exact absurd hsub (by decide)
  · exact absurd hsub (by decide)
  · rw [hparts hb hb']

theorem untouched_of_frame {v w : View} {key g key' g' : Bytes}
    (hframe : ∀ k, ¬ OfGroup key g k → w k = v k) (hne : (key', g') ≠ (key, g))
    (hg : g.length < 2 ^ 32) (hg' : g'.length < 2 ^ 32) : Untouched v w key' g' where
  group := hframe _ fun h => hne (ofGroup_inj hg hg' (Or.inl rfl) h)
  pels id := hframe _ fun h =>
    hne (ofGroup_inj hg hg' (Or.inr (Or.inl ⟨_, (pel_key_val key' g' id).symm⟩)) h)
  cons c := hframe _ fun h =>
    hne (ofGroup_inj hg hg' (Or.inr (Or.inr ⟨_, (con_key_val key' g' c).symm⟩)) h)

/-! ## DESTROY -/

/-- What the scans of XGROUP DESTROY find is all there is. -/
structure Within (core : FlushCore) (overlay writes : ValueMap) (key g : Bytes) : Prop where
  ids : ∀ id ∈ pending (viewOf core overlay (.of writes)) key g, inPrefixRange id = true ∧
    Reached core overlay writes (pelBase key g).val (pel_key key g id).val
  names : ∀ c, viewOf core overlay (.of writes) (con_key key g c).val ≠ none →
    ¬ ([0xff, 0xff] : Bytes) <+: c ∧
      Reached core overlay writes (conBase key g).val (con_key key g c).val

theorem found_pel {key g : Bytes} {id : Id} :
    Found (sightOf core overlay (.of writes)) (pelBase key g).val (pel_key key g id).val ↔
      inPrefixRange id = true ∧
        Reached core overlay writes (pelBase key g).val (pel_key key g id).val := by
  unfold Found
  rw [inPrefixRange_iff, ← inRange_prefix (pelBase key g).val, ← pel_key_val key g id]
  rfl

theorem found_con {key g c : Bytes} :
    Found (sightOf core overlay (.of writes)) (conBase key g).val (con_key key g c).val ↔
      ¬ ([0xff, 0xff] : Bytes) <+: c ∧
        Reached core overlay writes (conBase key g).val (con_key key g c).val := by
  unfold Found
  rw [← inRange_prefix (conBase key g).val c, ← con_key_val key g c]
  rfl

theorem destroyed_pel {s : Sight} {key g : Bytes} {id : Id} :
    Destroyed s key g (pel_key key g id).val ↔ Found s (pelBase key g).val (pel_key key g id).val := by
  have hstarts : (pelBase key g).val <+: (pel_key key g id).val := ⟨_, (pel_key_val key g id).symm⟩
  constructor
  · rintro (h | h | h)
    · exact absurd (h ▸ hstarts) (group_key_not_pel g)
    · exact h
    · exact absurd hstarts (con_not_pel h.starts)
  · exact fun h => Or.inr (Or.inl h)

theorem destroyed_con {s : Sight} {key g c : Bytes} :
    Destroyed s key g (con_key key g c).val ↔ Found s (conBase key g).val (con_key key g c).val := by
  have hstarts : (conBase key g).val <+: (con_key key g c).val := ⟨_, (con_key_val key g c).symm⟩
  constructor
  · rintro (h | h | h)
    · exact absurd (h ▸ hstarts) (group_key_not_con g)
    · exact absurd h.starts (con_not_pel hstarts)
    · exact h
  · exact fun h => Or.inr (Or.inr h)

variable {key g : Bytes}

/-- XGROUP DESTROY leaves the other groups alone, and nothing of its own exactly when
its scans reach everything. -/
theorem destroy_spec (hplaced : core.Placed)
    (hsmall : Small (viewOf core overlay (.of writes)))
    (h : HasGroup cx (viewOf core overlay (.of writes)) key g) :
    let d := outcome cx [utf8 Sub.destroy.word, key, g] core overlay writes
    d.1 = .int 1 ∧ (∀ k, ¬ OfGroup key g k → d.2 k = viewOf core overlay (.of writes) k) ∧
      (Gone d.2 key g ↔ Within core overlay writes key g) := by
  have hsees := sees_destroy (honest_sightOf core overlay (.of writes)) hsmall h
  rw [← xgroup_destroy] at hsees
  obtain ⟨hreply, hdel, hkeep⟩ := outcome_of_sees
    (P := fun r w => r = .ok (.int 1) ∧
      (∀ k, Destroyed (sightOf core overlay (.of writes)) key g k → w k = none) ∧
      ∀ k, ¬ Destroyed (sightOf core overlay (.of writes)) key g k →
        w k = viewOf core overlay (.of writes) k) hplaced hsees
    fun r w hr => ⟨_, hr.1, rfl⟩
  have hiff : ∀ k, (outcome cx [utf8 Sub.destroy.word, key, g] core overlay writes).2 k = none ↔
      (viewOf core overlay (.of writes) k ≠ none →
        Destroyed (sightOf core overlay (.of writes)) key g k) := by
    intro k
    constructor
    · intro hnone hv
      by_contra hnot
      exact hv ((hkeep k hnot).symm.trans hnone)
    · intro himp
      by_cases hd : Destroyed (sightOf core overlay (.of writes)) key g k
      · exact hdel k hd
      · rw [hkeep k hd]
        by_contra hv
        exact hd (himp hv)
  refine ⟨Except.ok.inj hreply, ?_, ?_⟩
  · intro k hk
    refine hkeep k fun hd => hk ?_
    rcases hd with hd | hd | hd
    · exact Or.inl hd
    · exact Or.inr (Or.inl hd.starts)
    · exact Or.inr (Or.inr hd.starts)
  · constructor
    · intro hgone
      constructor
      · intro id hid
        have hnone : (outcome cx [utf8 Sub.destroy.word, key, g] core overlay writes).2
            (pel_key key g id).val = none := by
          by_contra hsome
          exact Set.notMem_empty id (hgone.pels ▸ hsome)
        exact found_pel.mp (destroyed_pel.mp ((hiff _).mp hnone hid))
      · intro c hc
        exact found_con.mp (destroyed_con.mp ((hiff _).mp (hgone.cons c) hc))
    · intro hwithin
      constructor
      · exact hdel _ (Or.inl rfl)
      · rw [Set.eq_empty_iff_forall_notMem]
        intro id hid
        exact hid ((hiff _).mpr fun hv =>
          destroyed_pel.mpr (found_pel.mpr (hwithin.ids id hv)))
      · exact fun c => (hiff _).mpr fun hv =>
          destroyed_con.mpr (found_con.mpr (hwithin.names c hv))

/-- Where nothing was and nothing is stored, nothing is after the command. -/
theorem outcome_spares (hplaced : core.Placed) {S : Set Key} {a : List Bytes}
    (h : SparesR S (xgroup cx a)) (hnone : ∀ k ∈ S, viewOf core overlay (.of writes) k = none) :
    ∀ k ∈ S, (outcome cx a core overlay writes).2 k = none := by
  have hspares : Spares S (xgroup cx a).exec := by
    refine Spares.bind h fun r => ?_
    cases r <;> trivial
  have hrun := Cmd.sees_commit hplaced overlay [] (.of writes)
    (hspares.sees (s := sightOf core overlay (.of writes)) hnone)
  unfold outcome Cmd.taken
  simp only
  split
  · exact hnone
  · exact hrun

/-- A group that is created where nothing of it is stored has nothing pending and no
consumers. -/
theorem create_empty (hplaced : core.Placed)
    (hpels : pending (viewOf core overlay (.of writes)) key g = ∅)
    (hcons : ∀ c, viewOf core overlay (.of writes) (con_key key g c).val = none)
    (id_arg : Bytes) (opts : List Bytes) :
    let d := outcome cx (utf8 Sub.create.word :: key :: g :: id_arg :: opts) core overlay writes
    pending d.2 key g = ∅ ∧ ∀ c, d.2 (con_key key g c).val = none := by
  let S : Set Key := {k | (∃ id, k = (pel_key key g id).val) ∨ ∃ c, k = (con_key key g c).val}
  have hfamily : ∀ k ∈ S, ebase key SUB_XPEL <+: k ∨ ebase key SUB_XCON <+: k := by
    rintro k (⟨id, rfl⟩ | ⟨c, rfl⟩)
    · exact Or.inl ⟨_, rfl⟩
    · exact Or.inr ⟨_, rfl⟩
  have hkv : kv key ∉ S := by
    intro hk
    rcases hfamily _ hk with ⟨r, hr⟩ | ⟨r, hr⟩ <;>
      simp [Elements.ebase_eq, Elements.tagged, kv, kvPrefix] at hr
  have hgroup : (group_key key g).val ∉ S := by
    intro hk
    rcases hfamily _ hk with h | h
    · exact absurd (Elements.family_disjoint h (family_group_key key g)).2 (by decide)
    · exact absurd (Elements.family_disjoint h (family_group_key key g)).2 (by decide)
  have hnone : ∀ k ∈ S, viewOf core overlay (.of writes) k = none := by
    rintro k (⟨id, rfl⟩ | ⟨c, rfl⟩)
    · by_contra hsome
      exact Set.notMem_empty id (hpels ▸ hsome)
    · exact hcons c
  have hspares := spares_create cx hkv hgroup id_arg opts
  rw [← xgroup_create] at hspares
  have hafter := outcome_spares hplaced hspares hnone
  constructor
  · rw [Set.eq_empty_iff_forall_notMem]
    exact fun id hid => hid (hafter _ (Or.inl ⟨id, rfl⟩))
  · exact fun c => hafter _ (Or.inr ⟨c, rfl⟩)

/-! ## DELCONSUMER -/

instance : Finite Id := by
  refine Finite.of_injective (fun id : Id => (id.ms.toFin, id.seq.toFin)) ?_
  rintro ⟨ms, seq⟩ ⟨ms', seq'⟩ h
  obtain ⟨hms, hseq⟩ := Prod.mk.inj h
  rw [UInt64.toFin_inj] at hms hseq
  exact congrArg₂ Id.mk hms hseq

/-- The IDs that are pending for a consumer. -/
def owned (v : View) (key g c : Bytes) : Set Id := {id | ownerIn v key g id = some c}

/-- Nothing is stored of the consumer. -/
structure Released (w : View) (key g c : Bytes) : Prop where
  con : w (con_key key g c).val = none
  pels : owned w key g c = ∅

theorem owned_subset (v : View) (key g c : Bytes) : owned v key g c ⊆ pending v key g := by
  intro id hid hnone
  have howner : ownerIn v key g id = some c := hid
  rw [ownerIn, hnone] at howner
  cases howner

/-- What a scan sees as a consumer's is his. -/
theorem owner_seen {s : Sight} (hhonest : s.Honest) {hint : Key} {id : Id} {c : Bytes} :
    ownerIn (s.seen hint) key g id = some c ↔
      ownerIn s.view key g id = some c ∧ s.seen hint (pel_key key g id).val ≠ none := by
  unfold ownerIn
  cases hseen : s.seen hint (pel_key key g id).val with
  | none => simp
  | some x => simp [hhonest.some _ _ _ hseen]

/-- XGROUP DELCONSUMER answers with the number of pending entries that it deletes, leaves
everything else alone, and nothing of the consumer when it is there and the scan sees
what is pending for it. -/
theorem delConsumer_spec (hplaced : core.Placed)
    (hsmall : Small (viewOf core overlay (.of writes)))
    (h : HasGroup cx (viewOf core overlay (.of writes)) key g) (c : Bytes) :
    let v := viewOf core overlay (.of writes)
    let d := outcome cx [utf8 Sub.delConsumer.word, key, g, c] core overlay writes
    (∃ n : Nat, d.1 = .int (.ofNat n) ∧ (pending v key g).ncard = (pending d.2 key g).ncard + n) ∧
      (∀ k, k ≠ (con_key key g c).val → (∀ id ∈ owned v key g c, k ≠ (pel_key key g id).val) →
        d.2 k = v k) ∧
      (Released d.2 key g c ↔
        (v (con_key key g c).val = none → owned v key g c = ∅) ∧
          ∀ id ∈ owned v key g c,
            Reached core overlay writes (pelBase key g).val (pel_key key g id).val) := by
  intro v d
  have hhonest := honest_sightOf core overlay (.of writes)
  by_cases hcon : v (con_key key g c).val = none
  · have hsees := sees_delConsumer_absent (s := sightOf core overlay (.of writes)) h hcon
    rw [← xgroup_delConsumer] at hsees
    obtain ⟨hreply, hview⟩ := outcome_of_sees (P := fun r w => r = .ok (.int 0) ∧ w = v) hplaced
      hsees fun r w hr => ⟨_, hr.1, rfl⟩
    have hsame : d.2 = v := hview
    rw [hsame]
    refine ⟨⟨0, Except.ok.inj hreply, rfl⟩, fun _ _ _ => rfl, ?_⟩
    constructor
    · intro hreleased
      refine ⟨fun _ => hreleased.pels, fun id hid => ?_⟩
      rw [hreleased.pels] at hid
      exact absurd hid (Set.notMem_empty id)
    · exact fun hall => ⟨hcon, hall.1 hcon⟩
  · have hsees := sees_delConsumer hhonest hsmall h hcon
    rw [← xgroup_delConsumer] at hsees
    obtain ⟨pend, hpend, hreply, hgone, hdel, hkeep⟩ := outcome_of_sees
      (P := fun r w => ∃ pend, Pending (sightOf core overlay (.of writes)) key g c pend ∧
        r = .ok (.int (.ofNat pend.length)) ∧ w (con_key key g c).val = none ∧
        (∀ id ∈ pend.map Prod.fst, w (pel_key key g id).val = none) ∧
        ∀ k, k ≠ (con_key key g c).val → (∀ id ∈ pend.map Prod.fst, k ≠ (pel_key key g id).val) →
          w k = v k) hplaced hsees
      fun r w hr => by
        obtain ⟨pend, _, hreply, _⟩ := hr
        exact ⟨_, hreply, rfl⟩
    have hmem : ∀ id, id ∈ pend.map Prod.fst ↔ id ∈ owned v key g c ∧
        Reached core overlay writes (pelBase key g).val (pel_key key g id).val := fun id =>
      (hpend.mem id).trans (owner_seen hhonest)
    have hother : ∀ id, id ∉ pend.map Prod.fst →
        d.2 (pel_key key g id).val = v (pel_key key g id).val := fun id hid =>
      hkeep _ (pel_ne_con id c) fun id' hid' heq => hid (pel_key_injective heq ▸ hid')
    refine ⟨⟨pend.length, Except.ok.inj hreply, ?_⟩, ?_, ?_⟩
    · have hrest : pending d.2 key g = pending v key g \ {id | id ∈ pend.map Prod.fst} := by
        ext id
        by_cases hid : id ∈ pend.map Prod.fst
        · exact ⟨fun hsome => absurd (hdel id hid) hsome, fun hsome => absurd hid hsome.2⟩
        · refine ⟨fun hsome => ⟨?_, hid⟩, fun hsome => ?_⟩
          · change v _ ≠ none
            rw [← hother id hid]
            exact hsome
          · change d.2 _ ≠ none
            rw [hother id hid]
            exact hsome.1
      have hcount : ({id | id ∈ pend.map Prod.fst} : Set Id).ncard = pend.length := by
        classical
        have hset : ({id | id ∈ pend.map Prod.fst} : Set Id) = ↑(pend.map Prod.fst).toFinset := by
          ext id
          simp
        rw [hset, Set.ncard_coe_finset, List.toFinset_card_of_nodup hpend.nodup, List.length_map]
      have hsub : ({id | id ∈ pend.map Prod.fst} : Set Id) ⊆ pending v key g := fun id hid =>
        owned_subset v key g c ((hmem id).mp hid).1
      rw [hrest, ← hcount]
      exact (Set.ncard_sdiff_add_ncard_of_subset hsub).symm
    · exact fun k hk hpel => hkeep k hk fun id hid => hpel id ((hmem id).mp hid).1
    · have howned : ∀ id, id ∉ pend.map Prod.fst →
          (id ∈ owned d.2 key g c ↔ id ∈ owned v key g c) := by
        intro id hid
        unfold owned ownerIn
        rw [Set.mem_ofPred_eq, Set.mem_ofPred_eq, hother id hid]
      constructor
      · intro hreleased
        refine ⟨fun hnone => absurd hnone hcon, fun id hid => ?_⟩
        by_contra hnot
        have hout : id ∉ pend.map Prod.fst := fun hin => hnot ((hmem id).mp hin).2
        have hstill := (howned id hout).mpr hid
        rw [hreleased.pels] at hstill
        exact Set.notMem_empty id hstill
      · rintro ⟨_, hall⟩
        refine ⟨hgone, ?_⟩
        rw [Set.eq_empty_iff_forall_notMem]
        intro id hid
        by_cases hin : id ∈ pend.map Prod.fst
        · have hnone := hdel id hin
          exact owned_subset d.2 key g c hid hnone
        · have hmine := (howned id hin).mp hid
          exact hin ((hmem id).mpr ⟨hmine, hall id hmine⟩)

/-- **Removing groups and consumers.**  Both commands leave the other groups alone.
After XGROUP DESTROY nothing of the group is stored, and a group created again under its
name starts empty, exactly when no pending ID and no consumer's name begins with two
bytes `\xff`, and all of them are where the scans look.  XGROUP DELCONSUMER answers with
the number by which the pending entries drop, and nothing of the consumer is stored
afterwards exactly when there is such a consumer, or nothing pending for him. -/
theorem group_removal (hplaced : core.Placed) (hsmall : Small (viewOf core overlay (.of writes)))
    (h : HasGroup cx (viewOf core overlay (.of writes)) key g) (hg : g.length < 2 ^ 32)
    (c : Bytes) :
    let v := viewOf core overlay (.of writes)
    let d := outcome cx [utf8 Sub.destroy.word, key, g] core overlay writes
    let r := outcome cx [utf8 Sub.delConsumer.word, key, g, c] core overlay writes
    (∀ key' g', (key', g') ≠ (key, g) → g'.length < 2 ^ 32 →
        Untouched v d.2 key' g' ∧ Untouched v r.2 key' g') ∧
      (d.1 = .int 1 ∧ (Gone d.2 key g ↔ Within core overlay writes key g)) ∧
      (Gone d.2 key g → ∀ (cx' : Ctx) (core' : FlushCore) (overlay' writes' : ValueMap),
        core'.Placed → viewOf core' overlay' (.of writes') = d.2 → ∀ id_arg opts,
          let b := outcome cx' (utf8 Sub.create.word :: key :: g :: id_arg :: opts)
            core' overlay' writes'
          pending b.2 key g = ∅ ∧ ∀ c, b.2 (con_key key g c).val = none) ∧
      (∃ n : Nat, r.1 = .int (.ofNat n) ∧
        (pending v key g).ncard = (pending r.2 key g).ncard + n) ∧
      (Released r.2 key g c ↔
        (v (con_key key g c).val = none → owned v key g c = ∅) ∧
          ∀ id ∈ owned v key g c,
            Reached core overlay writes (pelBase key g).val (pel_key key g id).val) := by
  intro v d r
  obtain ⟨hone, hframe, hgone⟩ := destroy_spec hplaced hsmall h
  obtain ⟨hcount, hkeep, hreleased⟩ := delConsumer_spec hplaced hsmall h c
  have hrframe : ∀ k, ¬ OfGroup key g k → r.2 k = v k := by
    intro k hk
    refine hkeep k ?_ ?_
    · rintro rfl
      exact hk (Or.inr (Or.inr ⟨c, (con_key_val key g c).symm⟩))
    · rintro id _ rfl
      exact hk (Or.inr (Or.inl ⟨_, (pel_key_val key g id).symm⟩))
  refine ⟨?_, ⟨hone, hgone⟩, ?_, hcount, hreleased⟩
  · intro key' g' hne hg'
    exact ⟨untouched_of_frame hframe hne hg hg', untouched_of_frame hrframe hne hg hg'⟩
  · intro hempty cx' core' overlay' writes' hplaced' hview id_arg opts
    refine create_empty hplaced' ?_ ?_ id_arg opts
    · rw [hview]
      exact hempty.pels
    · intro c'
      rw [hview]
      exact hempty.cons c'

end Outcomes

/-! ## A group with one entry pending -/

/-- Nothing under this key has a deadline. -/
def plainContext : Ctx := { now := 9, readonly := false, fmt_f64 := fun _ => [] }

def header : Value := .metaBytes (Meta.new T_STREAM).encode
def entry : Value := .bytes (Pel.enc { time := 7, count := 1, owner := [99] })

/-- A stream with the group `g`, in which `5-0` is pending for the consumer `c`. -/
def onePending : ValueMap :=
  (((((∅ : ValueMap).insert (kv [107]) header).insert (group_key [107] [103]).val (.bytes [])).insert
    (pel_key [107] [103] ⟨5, 0⟩).val entry).insert (con_key [107] [103] [99]).val (.bytes []))

theorem viewOf_insert (m : ValueMap) (key : Key) (value : Value) :
    viewOf emptyCore ∅ (.of (m.insert key value)) =
      (viewOf emptyCore ∅ (.of m)).set key (live value) := by
  rw [← viewOf_write]
  unfold viewOf OpStore.get
  rw [writes_write]
  rfl

theorem onePending_view : viewOf emptyCore ∅ (.of onePending) =
    ((((View.set (fun _ => none) (kv [107]) (some header)).set (group_key [107] [103]).val
      (some (.bytes []))).set (pel_key [107] [103] ⟨5, 0⟩).val (some entry)).set
        (con_key [107] [103] [99]).val (some (.bytes []))) := by
  have hempty : viewOf emptyCore ∅ (.of ∅) = fun _ => none := by
    funext k
    unfold viewOf OpStore.get OpState.of
    rw [Std.ExtTreeMap.getElem?_empty]
    rfl
  unfold onePending
  rw [viewOf_insert, viewOf_insert, viewOf_insert, viewOf_insert, hempty]
  rfl

theorem onePending_keys {k : Key} (h : viewOf emptyCore ∅ (.of onePending) k ≠ none) :
    k ∈ [kv [107], (group_key [107] [103]).val, (pel_key [107] [103] ⟨5, 0⟩).val,
      (con_key [107] [103] [99]).val] := by
  rw [onePending_view] at h
  by_contra hnot
  simp only [List.mem_cons, List.not_mem_nil, or_false, not_or] at hnot
  obtain ⟨h1, h2, h3, h4⟩ := hnot
  rw [View.set_of_ne h4, View.set_of_ne h3, View.set_of_ne h2, View.set_of_ne h1] at h
  exact h rfl

theorem onePending_small : Small (viewOf emptyCore ∅ (.of onePending)) := by
  intro l hnodup hall
  have hsub : l ⊆ [kv [107], (group_key [107] [103]).val, (pel_key [107] [103] ⟨5, 0⟩).val,
      (con_key [107] [103] [99]).val] := fun k hk => onePending_keys (hall k hk)
  exact lt_of_le_of_lt (hnodup.subperm hsub).length_le (by decide)

theorem onePending_ids {rest : Bytes}
    (h : viewOf emptyCore ∅ (.of onePending) ((pelBase [107] [103]).val ++ rest) ≠ none) :
    rest = id_bytes ⟨5, 0⟩ := by
  have hmem := onePending_keys h
  simp only [List.mem_cons, List.not_mem_nil, or_false] at hmem
  have hstarts : (pelBase [107] [103]).val <+: (pelBase [107] [103]).val ++ rest :=
    List.prefix_append _ _
  rcases hmem with heq | heq | heq | heq
  · rw [heq] at hstarts
    exact absurd hstarts (by decide +kernel)
  · rw [heq] at hstarts
    exact absurd hstarts (group_key_not_pel [103])
  · rw [pel_key_val] at heq
    exact List.append_cancel_left heq
  · rw [heq] at hstarts
    exact absurd hstarts (con_not_pel ⟨_, (con_key_val [107] [103] [99]).symm⟩)

theorem onePending_hasGroup :
    HasGroup plainContext (viewOf emptyCore ∅ (.of onePending)) [107] [103] where
  header := by
    have hkv : viewOf emptyCore ∅ (.of onePending) (kv [107]) = some header := by
      rw [onePending_view]
      decide +kernel
    refine ⟨Meta.new T_STREAM, ?_, rfl⟩
    have hdecode : Meta.decode (Meta.new T_STREAM).encode = some (Meta.new T_STREAM) := by
      decide +kernel
    rw [hkv]
    simp only [header, Ctx.entOf, hdecode]
  alive := by
    have hexp : viewOf emptyCore ∅ (.of onePending) (expk [107]) = none := by
      rw [onePending_view]
      decide +kernel
    intro d hd
    rw [hexp] at hd
    cases hd
  group := by
    rw [onePending_view]
    decide +kernel
  ids := fun rest hrest => ⟨⟨5, 0⟩, onePending_ids hrest⟩

theorem placed_empty : emptyCore.Placed := by
  intro i k c hc
  have hnone : (emptyCore.shards i)[k]? = none := Std.ExtTreeMap.getElem?_empty
  rw [hnone] at hc
  cases hc

/-- Of this group nothing stays. -/
theorem onePending_destroyed :
    Gone (outcome plainContext [utf8 Sub.destroy.word, [107], [103]] emptyCore ∅ onePending).2
      [107] [103] := by
  have hspec := group_removal placed_empty onePending_small onePending_hasGroup (by decide) [99]
  refine hspec.2.1.2.mpr ⟨?_, ?_⟩
  · intro id hid
    have hid' : viewOf emptyCore ∅ (.of onePending) (pel_key [107] [103] id).val ≠ none := hid
    have hkey := hid'
    rw [pel_key_val] at hkey
    obtain rfl := id_bytes_injective (onePending_ids hkey)
    exact ⟨by decide, reached_of_ne_nil (by decide) (Elements.tagged_prefix_ekey ..)
      (Elements.tagged_prefix_ekey ..) hid'⟩
  · intro c hc
    refine ⟨?_, reached_of_ne_nil (by decide) (Elements.tagged_prefix_ekey ..)
      (Elements.tagged_prefix_ekey ..) hc⟩
    have hmem := onePending_keys hc
    have hstarts : (conBase [107] [103]).val <+: (con_key [107] [103] c).val :=
      ⟨_, (con_key_val [107] [103] c).symm⟩
    simp only [List.mem_cons, List.not_mem_nil, or_false] at hmem
    rcases hmem with heq | heq | heq | heq
    · rw [heq] at hstarts
      exact absurd hstarts (by decide +kernel)
    · rw [heq] at hstarts
      exact absurd hstarts (group_key_not_con [103])
    · exact absurd heq.symm (pel_ne_con _ c)
    · rw [con_key_val, con_key_val] at heq
      rw [List.append_cancel_left heq]
      decide

end XGroup
end StrikeDB
