import Mathlib.Data.List.Chain
import StrikeDB.Reactive

/-!
# StrikeDB: subscribers over whole runs

Callbacks take their steps in any order.  A run is in order as long as events are appended
without a gap, and a subscriber gets each from one sender and after those with smaller numbers.

**Results.**
* `Numbered.step`, `LogKept.step`, `Served.step`: what the steps of callbacks keep.
* `ordered_iff`: subscribers get every event once and in order in every state of a run if and
  only if its steps fit.
-/

namespace StrikeDB
namespace Reactive

/-! ## Senders -/

namespace Subs

theorem has_register (subs : Subs) (p p' : Bytes) (id id' : Nat) :
    (subs.register p id).Has p' id' ↔ subs.Has p' id' ∨ p' = p ∧ id' = id := by
  unfold register Has
  split
  · next hany =>
      obtain ⟨e₀, hmem₀, hp₀⟩ := List.any_eq_true.mp hany
      have hp₀ : e₀.1 = p := by simpa using hp₀
      constructor
      · rintro ⟨e, he, rfl, hid⟩
        obtain ⟨e', hmem, rfl⟩ := List.mem_map.mp he
        split at hid
        · next heq =>
            rcases List.mem_append.mp hid with hold | hnew
            · exact Or.inl ⟨e', hmem, by rw [if_pos heq], hold⟩
            · exact Or.inr ⟨by rw [if_pos heq]; exact heq, List.mem_singleton.mp hnew⟩
        · next heq => exact Or.inl ⟨e', hmem, by rw [if_neg heq], hid⟩
      · rintro (⟨e, hmem, rfl, hid⟩ | ⟨rfl, rfl⟩)
        · refine ⟨_, List.mem_map_of_mem hmem, ?_, ?_⟩
          · split <;> rfl
          · split
            · exact List.mem_append_left _ hid
            · exact hid
        · refine ⟨_, List.mem_map_of_mem hmem₀, ?_, ?_⟩
          · rw [if_pos hp₀]
            exact hp₀
          · rw [if_pos hp₀]
            exact List.mem_append_right _ List.mem_cons_self
  · constructor
    · rintro ⟨e, he, rfl, hid⟩
      rcases List.mem_append.mp he with hold | hnew
      · exact Or.inl ⟨e, hold, rfl, hid⟩
      · rw [List.mem_singleton.mp hnew] at hid ⊢
        exact Or.inr ⟨rfl, List.mem_singleton.mp hid⟩
    · rintro (⟨e, hmem, rfl, hid⟩ | ⟨rfl, rfl⟩)
      · exact ⟨e, List.mem_append_left _ hmem, rfl, hid⟩
      · exact ⟨_, List.mem_append_right _ (List.mem_singleton_self _), rfl,
          List.mem_singleton_self _⟩

theorem has_register_all (subs : Subs) (ps : List Bytes) (p' : Bytes) (id id' : Nat) :
    (ps.foldl (fun subs p => register subs p id) subs).Has p' id' ↔
      subs.Has p' id' ∨ p' ∈ ps ∧ id' = id := by
  induction ps generalizing subs with
  | nil => simp
  | cons p ps ih =>
      refine (ih _).trans ?_
      rw [has_register, List.mem_cons]
      tauto

theorem mem_matching (subs : Subs) (key : Key) (id : Nat) :
    id ∈ subs.matching key ↔ ∃ p, subs.Has p id ∧ p <+: key := by
  unfold matching Has
  simp only [List.mem_flatMap, List.mem_filter, List.isPrefixOf_iff_prefix]
  constructor
  · rintro ⟨e, ⟨hmem, hpre⟩, hid⟩
    exact ⟨e.1, ⟨e, hmem, rfl, hid⟩, hpre⟩
  · rintro ⟨p, ⟨e, hmem, rfl, hid⟩, hpre⟩
    exact ⟨e, ⟨hmem, hpre⟩, hid⟩

theorem has_prune (subs : Subs) (dead : List Nat) (p : Bytes) (id : Nat) :
    (subs.prune dead).Has p id ↔ subs.Has p id ∧ id ∉ dead := by
  unfold prune Has
  simp only [List.mem_filter, List.mem_map]
  constructor
  · rintro ⟨_, ⟨⟨e, hmem, rfl⟩, _⟩, rfl, hid⟩
    obtain ⟨hid, hdead⟩ := List.mem_filter.mp hid
    exact ⟨⟨e, hmem, rfl, hid⟩, of_decide_eq_true hdead⟩
  · rintro ⟨⟨e, hmem, rfl, hid⟩, hdead⟩
    have hkept : id ∈ e.2.filter (· ∉ dead) := List.mem_filter.mpr ⟨hid, decide_eq_true hdead⟩
    exact ⟨_, ⟨⟨e, hmem, rfl⟩, decide_eq_true (List.ne_nil_of_mem hkept)⟩, rfl, hkept⟩

theorem has_perm {subs order : Subs} (h : order.Perm subs) (p : Bytes) (id : Nat) :
    order.Has p id ↔ subs.Has p id := by
  unfold Has
  simp only [h.mem_iff]

end Subs

namespace Hub

/-! ## Steps that fit -/

/-- The event is appended next to the newest one: no larger number is in the log, and no
smaller one is missing from those that are. -/
def FitsLog (h : Hub) (cb : Callback) : Prop :=
  cb.phase = .drawn → ∀ cb' ∈ h.callbacks, cb'.Logged → cb'.number < cb.number ∧
    ∀ c ∈ h.callbacks, cb'.number < c.number → c.number < cb.number → c.Logged

/-- The subscriber has not got the event through another prefix, nor one with a larger number. -/
def FitsSend (h : Hub) (cb : Callback) : Prop :=
  ∀ id due, cb.phase = .sending (id :: due) → h.isOpen id = true → id ∉ cb.sent ∧
    ∀ cb' ∈ h.callbacks, cb.number < cb'.number → id ∉ cb'.sent

def Fits (h : Hub) : Act → Prop
  | .next i _ => ∀ cb, h.callbacks[i]? = some cb → h.FitsLog cb ∧ h.FitsSend cb
  | _ => True

/-- Every step fits the state before it. -/
def FitsAll (h : Hub) : List Act → Prop
  | [] => True
  | act :: acts => h.Fits act ∧ (h.step act).FitsAll acts

/-! ## Numbers -/

/-- Every number up to the newest was drawn by one callback. -/
structure Numbered (h : Hub) : Prop where
  le : ∀ cb ∈ h.callbacks, cb.number ≤ h.seq
  early : ∀ cb ∈ h.callbacks, cb.phase = .begun ∨ cb.phase = .checked → cb.number = 0
  late : ∀ cb ∈ h.callbacks, cb.phase ≠ .begun → cb.phase ≠ .checked → cb.phase ≠ .done →
    cb.number ≠ 0
  distinct : ∀ (i j : Nat) (cb cb' : Callback), h.callbacks[i]? = some cb → h.callbacks[j]? = some cb' →
    cb.number ≠ 0 → cb.number = cb'.number → i = j
  all : ∀ n, 0 < n → n ≤ h.seq → ∃ cb ∈ h.callbacks, cb.number = n

theorem forall_set {P : Callback → Prop} {l : List Callback} (h : ∀ cb ∈ l, P cb) (i : Nat)
    {cb : Callback} (hcb : P cb) : ∀ c ∈ l.set i cb, P c := by
  intro c hc
  rcases List.mem_or_eq_of_mem_set hc with hold | rfl
  · exact h c hold
  · exact hcb

theorem exists_set {P : Callback → Prop} {l : List Callback} {i : Nat} {cb cb' : Callback}
    (hcb : l[i]? = some cb) (hP : P cb → P cb') (h : ∃ c ∈ l, P c) : ∃ c ∈ l.set i cb', P c := by
  obtain ⟨c, hc, hPc⟩ := h
  obtain ⟨j, hj⟩ := List.mem_iff_getElem?.mp hc
  have hlt : i < l.length := (List.getElem?_eq_some_iff.mp hcb).1
  by_cases hij : i = j
  · subst hij
    rw [hcb] at hj
    obtain rfl := Option.some.inj hj
    exact ⟨cb', List.mem_set hlt _, hP hPc⟩
  · refine ⟨c, List.mem_iff_getElem?.mpr ⟨j, ?_⟩, hPc⟩
    rw [List.getElem?_set_ne hij]
    exact hj

theorem getElem?_set_cases {l : List Callback} {i j : Nat} {cb c : Callback}
    (h : (l.set i cb)[j]? = some c) : (i = j ∧ c = cb) ∨ (i ≠ j ∧ l[j]? = some c) := by
  by_cases hij : i = j
  · subst hij
    rw [List.getElem?_set_self'] at h
    obtain ⟨_, _, rfl⟩ := Option.map_eq_some_iff.mp h
    exact Or.inl ⟨rfl, rfl⟩
  · rw [List.getElem?_set_ne hij] at h
    exact Or.inr ⟨hij, h⟩

section Advance

variable {h : Hub} {i : Nat} {cb cb' : Callback}

/-- A callback goes on with its number. -/
theorem Numbered.set (hn : Numbered h) (hcb : h.callbacks[i]? = some cb) {h' : Hub}
    (hset : h'.callbacks = h.callbacks.set i cb') (hseq : h'.seq = h.seq)
    (hnumber : cb'.number = cb.number)
    (hearly : cb'.phase = .begun ∨ cb'.phase = .checked → cb'.number = 0)
    (hlate : cb'.phase ≠ .begun → cb'.phase ≠ .checked → cb'.phase ≠ .done → cb'.number ≠ 0) :
    Numbered h' := by
  have hmem := List.mem_of_getElem? hcb
  refine ⟨?_, ?_, ?_, ?_, ?_⟩
  · rw [hset, hseq]
    exact forall_set hn.le i (hnumber ▸ hn.le cb hmem)
  · rw [hset]
    exact forall_set hn.early i hearly
  · rw [hset]
    exact forall_set hn.late i hlate
  · intro j k c c' hj hk hne heq
    rw [hset] at hj hk
    rcases getElem?_set_cases hj with ⟨rfl, rfl⟩ | ⟨_, hj'⟩
    · rcases getElem?_set_cases hk with ⟨rfl, _⟩ | ⟨_, hk'⟩
      · rfl
      · exact hn.distinct _ _ _ _ hcb hk' (hnumber ▸ hne) (hnumber ▸ heq)
    · rcases getElem?_set_cases hk with ⟨rfl, rfl⟩ | ⟨_, hk'⟩
      · exact hn.distinct _ _ _ _ hj' hcb hne (heq.trans hnumber)
      · exact hn.distinct _ _ _ _ hj' hk' hne heq
  · intro n hpos hle
    rw [hseq] at hle
    rw [hset]
    exact exists_set hcb (fun hcb => hnumber.trans hcb) (hn.all n hpos hle)

theorem Numbered.later (hn : Numbered h) (hcb : h.callbacks[i]? = some cb)
    (hlate : cb.phase ≠ .begun ∧ cb.phase ≠ .checked ∧ cb.phase ≠ .done) {h' : Hub}
    (hset : h'.callbacks = h.callbacks.set i cb') (hseq : h'.seq = h.seq)
    (hnumber : cb'.number = cb.number) (hlater : cb'.phase ≠ .begun ∧ cb'.phase ≠ .checked) :
    Numbered h' := by
  refine hn.set hcb hset hseq hnumber ?_ ?_
  · rintro (hphase | hphase)
    · exact absurd hphase hlater.1
    · exact absurd hphase hlater.2
  · intro _ _ _
    rw [hnumber]
    exact hn.late cb (List.mem_of_getElem? hcb) hlate.1 hlate.2.1 hlate.2.2

/-- A callback draws the next number. -/
theorem Numbered.draw (hn : Numbered h) (hcb : h.callbacks[i]? = some cb)
    (hphase : cb.phase = .checked) :
    Numbered
      { h with
        seq := h.seq + 1
        callbacks := h.callbacks.set i { cb with phase := .drawn, number := h.seq + 1 } } := by
  have hmem := List.mem_of_getElem? hcb
  have hzero := hn.early cb hmem (Or.inr hphase)
  refine ⟨?_, ?_, ?_, ?_, ?_⟩
  · exact forall_set (fun c hc => Nat.le_succ_of_le (hn.le c hc)) i (Nat.le_refl _)
  · exact forall_set hn.early i (by simp)
  · exact forall_set hn.late i (fun _ _ _ => Nat.succ_ne_zero _)
  · intro j k c c' hj hk hne heq
    rcases getElem?_set_cases hj with ⟨rfl, rfl⟩ | ⟨_, hj'⟩
    · rcases getElem?_set_cases hk with ⟨rfl, _⟩ | ⟨_, hk'⟩
      · rfl
      · have hle := hn.le c' (List.mem_of_getElem? hk')
        simp only at heq
        omega
    · rcases getElem?_set_cases hk with ⟨rfl, rfl⟩ | ⟨_, hk'⟩
      · have hle := hn.le c (List.mem_of_getElem? hj')
        simp only at heq
        omega
      · exact hn.distinct _ _ _ _ hj' hk' hne heq
  · intro n hpos hle
    rcases Nat.lt_or_eq_of_le hle with hlt | rfl
    · refine exists_set (P := fun c => c.number = n) hcb (fun hn' => ?_)
        (hn.all n hpos (Nat.le_of_lt_succ hlt))
      omega
    · exact ⟨_, List.mem_set (List.getElem?_eq_some_iff.mp hcb).1 _, rfl⟩

/-- What is in the log has a number. -/
theorem Numbered.of_logged (hn : Numbered h) (hmem : cb ∈ h.callbacks) (hlogged : cb.Logged) :
    cb.number ≠ 0 := by
  unfold Callback.Logged at hlogged
  split at hlogged
  · exact hlogged.elim
  · exact hlogged.elim
  · exact hlogged.elim
  · exact hlogged
  · next hbegun hchecked _ hdone => exact hn.late cb hmem hbegun hchecked hdone

theorem Numbered.advance (hn : Numbered h) (hcb : h.callbacks[i]? = some cb) (order : Subs) :
    Numbered (h.advance i cb order) := by
  have hmem := List.mem_of_getElem? hcb
  unfold Hub.advance
  split
  · next hphase =>
      have hzero := hn.early cb hmem (Or.inl hphase)
      refine hn.set hcb rfl rfl rfl (fun _ => hzero) ?_
      cases hen : h.enabled with
      | false => exact fun _ _ hdone => absurd rfl hdone
      | true => exact fun _ hchecked => absurd rfl hchecked
  · next hphase => exact hn.draw hcb hphase
  · next hphase => exact hn.later hcb (by simp [hphase]) rfl rfl rfl (by simp)
  · next hphase =>
      split
      · exact hn.later hcb (by simp [hphase]) rfl rfl rfl (by simp)
      · exact hn
  · next id due hphase =>
      split
      · exact hn.later hcb (by simp [hphase]) rfl rfl rfl (by simp)
      · exact hn.later hcb (by simp [hphase]) rfl rfl rfl (by simp)
  · next hphase =>
      refine hn.later hcb (by simp [hphase]) rfl rfl rfl ?_
      dsimp only
      split <;> simp
  · next hphase =>
      split
      · exact hn
      · exact hn.later hcb (by simp [hphase]) rfl rfl rfl (by simp)
  · exact hn

end Advance

/-! ## The log -/

/-- The log has the events of the callbacks that have appended, up to the newest of them, and
there is no gap. -/
structure LogKept (h : Hub) : Prop where
  chain : h.log.IsChain fun a b => b.seq = a.seq + 1
  events : ∀ e ∈ h.log, ∃ cb ∈ h.callbacks, cb.Logged ∧ cb.event = e
  empty : h.log = [] → ∀ cb ∈ h.callbacks, ¬ cb.Logged
  newest : ∀ e, h.log.getLast? = some e → ∀ cb ∈ h.callbacks, cb.Logged → cb.number ≤ e.seq
  filled : ∀ e, h.log.getLast? = some e → ∀ cb ∈ h.callbacks, cb.Logged →
    ∀ c ∈ h.callbacks, cb.number ≤ c.number → c.number ≤ e.seq → c.Logged

theorem ascending_of_chain {log : List CdcEvent}
    (h : log.IsChain fun a b => b.seq = a.seq + 1) : log.Pairwise fun a b => a.seq < b.seq := by
  have htrans : IsTrans CdcEvent fun a b => a.seq < b.seq := ⟨fun _ _ _ => Nat.lt_trans⟩
  exact List.isChain_iff_pairwise.mp (h.imp fun _ _ heq => by omega)

/-- What is dropped from a full log are not its newest events. -/
theorem push_spec (log : List CdcEvent) (ev : CdcEvent) :
    ∃ kept, push log ev = kept ++ [ev] ∧ kept <:+ log ∧ kept.getLast? = log.getLast? := by
  refine ⟨_, rfl, ?_, ?_⟩
  · split
    · exact List.drop_suffix _ _
    · exact List.suffix_refl _
  · split
    · next hfull =>
        rw [List.getLast?_drop, if_neg]
        have hcap : CDC_LOG_CAP / 4 < CDC_LOG_CAP := by decide
        omega
    · rfl

section Log

variable {h : Hub} {i : Nat} {cb cb' : Callback}

theorem LogKept.set (hl : LogKept h) (hcb : h.callbacks[i]? = some cb) {h' : Hub}
    (hset : h'.callbacks = h.callbacks.set i cb') (hlog : h'.log = h.log)
    (hevent : cb'.event = cb.event) (hlogged : cb'.Logged ↔ cb.Logged) : LogKept h' := by
  have hmem := List.mem_of_getElem? hcb
  have hnumber : cb'.number = cb.number := congrArg CdcEvent.seq hevent
  refine ⟨hlog ▸ hl.chain, ?_, ?_, ?_, ?_⟩
  · rw [hlog, hset]
    intro e he
    exact exists_set hcb (fun hP => ⟨hlogged.mpr hP.1, hevent.trans hP.2⟩) (hl.events e he)
  · rw [hlog, hset]
    intro hnil
    exact forall_set (hl.empty hnil) i fun hP => hl.empty hnil cb hmem (hlogged.mp hP)
  · rw [hlog, hset]
    intro e he
    refine forall_set (hl.newest e he) i fun hP => ?_
    rw [hnumber]
    exact hl.newest e he cb hmem (hlogged.mp hP)
  · rw [hlog, hset]
    intro e he
    -- the callback counts as it did, on both sides
    have hfilled (c : Callback) (hc : c ∈ h.callbacks) (hP : c.Logged) :
        ∀ c' ∈ h.callbacks.set i cb', c.number ≤ c'.number → c'.number ≤ e.seq → c'.Logged := by
      refine forall_set (hl.filled e he c hc hP) i fun hle hle' => ?_
      rw [hnumber] at hle hle'
      exact hlogged.mpr (hl.filled e he c hc hP cb hmem hle hle')
    refine forall_set hfilled i fun hP => ?_
    rw [hnumber]
    exact hfilled cb hmem (hlogged.mp hP)

/-- A number that was not drawn yet is not in the log. -/
theorem LogKept.draw (hl : LogKept h) (hn : Numbered h) (hcb : h.callbacks[i]? = some cb)
    (hphase : cb.phase = .checked) :
    LogKept
      { h with
        seq := h.seq + 1
        callbacks := h.callbacks.set i { cb with phase := .drawn, number := h.seq + 1 } } := by
  have hunlogged : ¬ cb.Logged := by
    rw [Callback.Logged, hphase]
    exact not_false
  have hbound (e : CdcEvent) (he : h.log.getLast? = some e) : e.seq ≤ h.seq := by
    obtain ⟨c, hc, _, rfl⟩ := hl.events e (List.mem_of_getLast? he)
    exact hn.le c hc
  refine ⟨hl.chain, ?_, ?_, ?_, ?_⟩
  · intro e he
    exact exists_set hcb (fun hP => absurd hP.1 hunlogged) (hl.events e he)
  · exact fun hnil => forall_set (hl.empty hnil) i not_false
  · exact fun e he => forall_set (hl.newest e he) i fun hP => absurd hP not_false
  · intro e he
    refine forall_set (fun c hc hP => forall_set (hl.filled e he c hc hP) i fun _ hle => ?_) i
      fun hP => absurd hP not_false
    have hle' := hbound e he
    simp only at hle
    omega

/-- The number of an event that fits is the one after the newest. -/
theorem LogKept.follows (hl : LogKept h) (hn : Numbered h) (hcb : h.callbacks[i]? = some cb)
    (hphase : cb.phase = .drawn) (hfits : h.FitsLog cb) {e : CdcEvent}
    (he : h.log.getLast? = some e) : cb.number = e.seq + 1 := by
  obtain ⟨c, hc, hP, hce⟩ := hl.events e (List.mem_of_getLast? he)
  have hseq : c.number = e.seq := congrArg CdcEvent.seq hce
  obtain ⟨hlt, hbetween⟩ := hfits hphase c hc hP
  by_contra hne
  obtain ⟨c', hc', hnumber⟩ := hn.all (e.seq + 1) (Nat.succ_pos _) (by
    have hle := hn.le cb (List.mem_of_getElem? hcb)
    omega)
  have hP' := hbetween c' hc' (by omega) (by omega)
  have hle := hl.newest e he c' hc' hP'
  omega

/-- An event that fits is appended next to the newest. -/
theorem LogKept.append (hl : LogKept h) (hn : Numbered h) (hcb : h.callbacks[i]? = some cb)
    (hphase : cb.phase = .drawn) (hfits : h.FitsLog cb) :
    LogKept
      { h with
        log := push h.log cb.event
        callbacks := h.callbacks.set i { cb with phase := .logged } } := by
  have hunlogged : ¬ cb.Logged := by
    rw [Callback.Logged, hphase]
    exact not_false
  have hmem := List.mem_of_getElem? hcb
  have hnonzero : cb.number ≠ 0 := hn.late cb hmem (by simp [hphase]) (by simp [hphase])
    (by simp [hphase])
  have hbelow (c : Callback) (hc : c ∈ h.callbacks) (hP : c.Logged) : c.number < cb.number :=
    (hfits hphase c hc hP).1
  obtain ⟨kept, hpush, hsuffix, hlast⟩ := push_spec h.log cb.event
  refine ⟨?_, ?_, ?_, ?_, ?_⟩
  · rw [hpush, List.isChain_append]
    refine ⟨hl.chain.suffix hsuffix, List.isChain_singleton _, ?_⟩
    intro e he ev hev
    rw [List.head?_singleton, Option.mem_some_iff] at hev
    rw [hlast] at he
    rw [← hev]
    exact hl.follows hn hcb hphase hfits he
  · rw [hpush]
    intro e he
    rcases List.mem_append.mp he with he | he
    · exact exists_set hcb (fun hP => absurd hP.1 hunlogged) (hl.events e (hsuffix.subset he))
    · rw [List.mem_singleton.mp he]
      exact ⟨_, List.mem_set (List.getElem?_eq_some_iff.mp hcb).1 _, trivial, rfl⟩
  · rw [hpush]
    exact fun hnil => absurd hnil (by simp)
  · rw [hpush]
    intro e he
    obtain rfl : cb.event = e := by simpa using he
    exact forall_set (fun c hc hP => (hbelow c hc hP).le) i fun _ => Nat.le_refl _
  · rw [hpush]
    intro e he
    obtain rfl : cb.event = e := by simpa using he
    intro c hc hP c' hc' hle hle'
    change c'.number ≤ cb.number at hle'
    obtain ⟨k, hk⟩ := List.mem_iff_getElem?.mp hc'
    rcases getElem?_set_cases hk with ⟨_, rfl⟩ | ⟨hne, hk'⟩
    · exact trivial
    · have hne' : c'.number ≠ cb.number := fun heq =>
        hne (hn.distinct i k cb c' hcb hk' hnonzero heq.symm)
      rcases List.mem_or_eq_of_mem_set hc with hc | rfl
      · rcases Nat.lt_or_eq_of_le hle with hlt | heq
        · exact (hfits hphase c hc hP).2 c' (List.mem_of_getElem? hk') hlt (by omega)
        · cases hnewest : h.log.getLast? with
          | none => exact absurd hP (hl.empty (List.getLast?_eq_none_iff.mp hnewest) c hc)
          | some e =>
              have hle'' := hl.newest e hnewest c hc hP
              exact hl.filled e hnewest c hc hP c' (List.mem_of_getElem? hk') hle (by omega)
      · exact absurd hle (by
          change ¬ cb.number ≤ c'.number
          omega)

theorem LogKept.advance (hl : LogKept h) (hn : Numbered h) (hcb : h.callbacks[i]? = some cb)
    (hfits : h.FitsLog cb) (order : Subs) : LogKept (h.advance i cb order) := by
  have hmem := List.mem_of_getElem? hcb
  unfold Hub.advance
  split
  · next hphase =>
      refine hl.set hcb rfl rfl rfl ?_
      have hzero := hn.early cb hmem (Or.inl hphase)
      rw [Callback.Logged, Callback.Logged, hphase]
      cases h.enabled with
      | false => exact iff_of_false (fun hne => hne hzero) not_false
      | true => exact Iff.rfl
  · next hphase => exact hl.draw hn hcb hphase
  · next hphase => exact hl.append hn hcb hphase hfits
  · next hphase =>
      split
      · exact hl.set hcb rfl rfl rfl (by rw [Callback.Logged, Callback.Logged, hphase])
      · exact hl
  · next id due hphase =>
      split
      · exact hl.set hcb rfl rfl rfl (by rw [Callback.Logged, Callback.Logged, hphase])
      · exact hl.set hcb rfl rfl rfl (by rw [Callback.Logged, Callback.Logged, hphase])
  · next hphase =>
      refine hl.set hcb rfl rfl rfl ?_
      have hnumber := hn.late cb hmem (by simp [hphase]) (by simp [hphase]) (by simp [hphase])
      rw [Callback.Logged, Callback.Logged, hphase]
      by_cases hdead : cb.dead = []
      · rw [if_pos hdead]
        exact iff_of_true hnumber trivial
      · rw [if_neg hdead]
  · next hphase =>
      split
      · exact hl
      · have hnumber := hn.late cb hmem (by simp [hphase]) (by simp [hphase]) (by simp [hphase])
        refine hl.set hcb rfl rfl rfl ?_
        rw [Callback.Logged, Callback.Logged, hphase]
        exact iff_of_true hnumber trivial
  · exact hl

/-- Without a gap behind it, an appended event fits. -/
theorem LogKept.fits (hl : LogKept h)
    (hchain : (push h.log cb.event).IsChain fun a b => b.seq = a.seq + 1) : h.FitsLog cb := by
  intro _ c hc hP
  obtain ⟨kept, hpush, _, hlast⟩ := push_spec h.log cb.event
  cases he : h.log.getLast? with
  | none => exact absurd hP (hl.empty (List.getLast?_eq_none_iff.mp he) c hc)
  | some e =>
      rw [hpush, List.isChain_append] at hchain
      have hnext : cb.number = e.seq + 1 := hchain.2.2 e (by rw [hlast, he]; rfl) _ rfl
      have hle := hl.newest e he c hc hP
      refine ⟨by omega, fun c' hc' hlt hlt' => ?_⟩
      exact hl.filled e he c hc hP c' hc' hlt.le (by omega)

end Log


/-! ## What was sent -/

/-- What a subscription was and has got is kept. -/
def Extends (l l' : List Subscription) : Prop :=
  ∀ (id : Nat) (σ : Subscription), l[id]? = some σ → ∃ σ', l'[id]? = some σ' ∧
    σ'.prefixes = σ.prefixes ∧ (σ.opened = false → σ'.opened = false) ∧ σ.received ⊆ σ'.received

theorem extends_modify {f : Subscription → Subscription}
    (hf : ∀ σ, (f σ).prefixes = σ.prefixes ∧ (σ.opened = false → (f σ).opened = false) ∧
      σ.received ⊆ (f σ).received) (l : List Subscription) (id : Nat) :
    Extends l (l.modify id f) := by
  intro id' σ hσ
  rw [List.getElem?_modify, hσ]
  by_cases heq : id = id'
  · exact ⟨f σ, by simp [heq], hf σ⟩
  · exact ⟨σ, by simp [heq], rfl, fun h => h, List.Subset.refl _⟩

theorem extends_append (l l' : List Subscription) : Extends l (l ++ l') := by
  intro id σ hσ
  refine ⟨σ, ?_, rfl, fun h => h, List.Subset.refl _⟩
  rw [List.getElem?_append_left (List.getElem?_eq_some_iff.mp hσ).1]
  exact hσ

/-- What a callback has left, what it found and what it did. -/
structure Works (l : List Subscription) (cb : Callback) : Prop where
  due : ∀ due, cb.phase = .sending due → ∀ id ∈ due,
    ∃ σ, l[id]? = some σ ∧ σ.Wants cb.m.key
  dead : ∀ id ∈ cb.dead, ∃ σ, l[id]? = some σ ∧ σ.opened = false
  sent : ∀ id ∈ cb.sent, cb.number ≠ 0 ∧ ∃ σ, l[id]? = some σ ∧ cb.event ∈ σ.received

theorem Works.mono {l l' : List Subscription} {cb : Callback} (h : Works l cb)
    (hl : Extends l l') : Works l' cb where
  due := by
    intro due hphase id hid
    obtain ⟨σ, hσ, hwants⟩ := h.due due hphase id hid
    obtain ⟨σ', hσ', hprefixes, _, _⟩ := hl id σ hσ
    refine ⟨σ', hσ', ?_⟩
    rwa [Subscription.Wants, hprefixes]
  dead := by
    intro id hid
    obtain ⟨σ, hσ, hclosed⟩ := h.dead id hid
    obtain ⟨σ', hσ', _, hopened, _⟩ := hl id σ hσ
    exact ⟨σ', hσ', hopened hclosed⟩
  sent := by
    intro id hid
    obtain ⟨hnumber, σ, hσ, hmem⟩ := h.sent id hid
    obtain ⟨σ', hσ', _, _, hreceived⟩ := hl id σ hσ
    exact ⟨hnumber, σ', hσ', hreceived hmem⟩

/-- The subscription has been sent to, or will be. -/
def Reaches (cb : Callback) (id : Nat) : Prop :=
  match cb.phase with
  | .sending due => id ∈ due ∨ id ∈ cb.sent
  | .pruning => id ∈ cb.sent
  | .done => id ∈ cb.sent
  | _ => True

/-- Senders are registered where they should be, and callbacks reach who subscribed before. -/
structure Served (h : Hub) : Prop where
  subs : ∀ p id, h.subs.Has p id → ∃ σ, h.subscriptions[id]? = some σ ∧ p ∈ σ.prefixes
  registered : ∀ (id : Nat) (σ : Subscription), h.subscriptions[id]? = some σ →
    σ.opened = true → ∀ p ∈ σ.prefixes, h.subs.Has p id
  enabled : h.enabled = false → h.subscriptions = []
  works : ∀ cb ∈ h.callbacks, Works h.subscriptions cb
  received : ∀ (id : Nat) (σ : Subscription), h.subscriptions[id]? = some σ →
    ∀ e ∈ σ.received, σ.Wants e.key ∧ ∃ cb ∈ h.callbacks, id ∈ cb.sent ∧ cb.event = e
  reach : ∀ (i : Nat) (cb : Callback), h.callbacks[i]? = some cb → ∀ (id : Nat) (σ : Subscription),
    h.subscriptions[id]? = some σ → σ.opened = true → σ.since ≤ i → σ.Wants cb.m.key →
      Reaches cb id
  increasing : ∀ σ ∈ h.subscriptions, σ.received.Pairwise fun a b => a.seq < b.seq

section Serve

variable {h : Hub} {i : Nat} {cb cb' : Callback}

theorem Served.set (hs : Served h) (hcb : h.callbacks[i]? = some cb) {h' : Hub}
    (hset : h'.callbacks = h.callbacks.set i cb') (hsubs : h'.subs = h.subs)
    (hsubscriptions : h'.subscriptions = h.subscriptions) (henabled : h'.enabled = h.enabled)
    (hworks : Works h.subscriptions cb')
    (hsent : ∀ id ∈ cb.sent, id ∈ cb'.sent ∧ cb'.event = cb.event)
    (hreach : ∀ (id : Nat) (σ : Subscription), h.subscriptions[id]? = some σ → σ.opened = true →
      σ.since ≤ i → σ.Wants cb'.m.key → Reaches cb' id) : Served h' := by
  refine ⟨?_, ?_, ?_, ?_, ?_, ?_, ?_⟩
  · rw [hsubs, hsubscriptions]
    exact hs.subs
  · rw [hsubs, hsubscriptions]
    exact hs.registered
  · rw [henabled, hsubscriptions]
    exact hs.enabled
  · rw [hset, hsubscriptions]
    exact forall_set hs.works i hworks
  · rw [hset, hsubscriptions]
    intro id σ hσ e he
    refine ⟨(hs.received id σ hσ e he).1, ?_⟩
    exact exists_set hcb (fun hP => ⟨(hsent id hP.1).1, (hsent id hP.1).2.trans hP.2⟩)
      (hs.received id σ hσ e he).2
  · rw [hset, hsubscriptions]
    intro j c hj
    rcases getElem?_set_cases hj with ⟨rfl, rfl⟩ | ⟨_, hj'⟩
    · exact hreach
    · exact hs.reach j c hj'
  · rw [hsubscriptions]
    exact hs.increasing

theorem modify_cases {l : List Subscription} {f : Subscription → Subscription} {id id' : Nat}
    {σ' : Subscription} (h : (l.modify id f)[id']? = some σ') :
    ∃ σ, l[id']? = some σ ∧ ((id = id' ∧ σ' = f σ) ∨ (id ≠ id' ∧ σ' = σ)) := by
  rw [List.getElem?_modify] at h
  obtain ⟨σ, hσ, rfl⟩ := Option.map_eq_some_iff.mp h
  refine ⟨σ, hσ, ?_⟩
  by_cases heq : id = id'
  · exact Or.inl ⟨heq, if_pos heq⟩
  · exact Or.inr ⟨heq, if_neg heq⟩

theorem of_isOpen {id : Nat} (hopen : h.isOpen id = true) :
    ∃ σ, h.subscriptions[id]? = some σ ∧ σ.opened = true := by
  unfold isOpen at hopen
  split at hopen
  · next σ hσ => exact ⟨σ, hσ, hopen⟩
  · cases hopen

theorem not_open_of_isOpen {id : Nat} (hopen : ¬ h.isOpen id = true) {σ : Subscription}
    (hσ : h.subscriptions[id]? = some σ) : σ.opened = false := by
  unfold isOpen at hopen
  rw [hσ] at hopen
  simpa using hopen

/-- An event that fits is newer than what the subscriber has got. -/
theorem Served.newer (hs : Served h) (hn : Numbered h) (hcb : h.callbacks[i]? = some cb)
    {id : Nat} {due : List Nat} (hphase : cb.phase = .sending (id :: due))
    (hopen : h.isOpen id = true) (hfits : h.FitsSend cb) {σ : Subscription}
    (hσ : h.subscriptions[id]? = some σ) : ∀ e ∈ σ.received, e.seq < cb.number := by
  intro e he
  obtain ⟨_, c, hc, hsent, rfl⟩ := hs.received id σ hσ e he
  obtain ⟨hself, hlarger⟩ := hfits id due hphase hopen
  have hle : c.number ≤ cb.number := Nat.le_of_not_lt fun hlt => hlarger c hc hlt hsent
  have hne : c.number ≠ cb.number := by
    intro heq
    obtain ⟨j, hj⟩ := List.mem_iff_getElem?.mp hc
    obtain rfl := hn.distinct j i c cb hj hcb ((hs.works c hc).sent id hsent).1 heq
    rw [hcb] at hj
    obtain rfl := Option.some.inj hj
    exact hself hsent
  exact Nat.lt_of_le_of_ne hle hne

/-- The next sender is there. -/
theorem Served.send (hs : Served h) (hn : Numbered h) (hcb : h.callbacks[i]? = some cb)
    {id : Nat} {due : List Nat} (hphase : cb.phase = .sending (id :: due))
    (hopen : h.isOpen id = true) (hfits : h.FitsSend cb) :
    Served
      { h with
        subscriptions := deliver h.subscriptions id cb.event
        callbacks := h.callbacks.set i { cb with phase := .sending due, sent := id :: cb.sent } } := by
  have hmem := List.mem_of_getElem? hcb
  have hnumber := hn.late cb hmem (by simp [hphase]) (by simp [hphase]) (by simp [hphase])
  obtain ⟨σ₀, hσ₀, hopened₀⟩ := of_isOpen hopen
  have hext : Extends h.subscriptions (deliver h.subscriptions id cb.event) :=
    extends_modify (f := fun σ => { σ with received := σ.received ++ [cb.event] })
      (fun _ => ⟨rfl, fun h => h, List.subset_append_left _ _⟩) _ _
  have hworks := (hs.works cb hmem).mono hext
  have hself : (deliver h.subscriptions id cb.event)[id]? =
      some { σ₀ with received := σ₀.received ++ [cb.event] } := by
    rw [deliver, List.getElem?_modify, hσ₀]
    simp
  refine ⟨?_, ?_, ?_, ?_, ?_, ?_, ?_⟩
  · intro p id' hhas
    obtain ⟨σ, hσ, hp⟩ := hs.subs p id' hhas
    obtain ⟨σ', hσ', hprefixes, _, _⟩ := hext id' σ hσ
    exact ⟨σ', hσ', hprefixes ▸ hp⟩
  · intro id' σ' hσ' hopened
    obtain ⟨σ, hσ, ⟨_, rfl⟩ | ⟨_, rfl⟩⟩ := modify_cases hσ'
    · exact hs.registered id' σ hσ hopened
    · exact hs.registered id' _ hσ hopened
  · intro hen
    rw [hs.enabled hen] at hσ₀
    cases hσ₀
  · refine forall_set (fun c hc => (hs.works c hc).mono hext) i ⟨?_, hworks.dead, ?_⟩
    · intro due' hdue id' hid
      cases hdue
      exact hworks.due _ hphase id' (List.mem_cons_of_mem _ hid)
    · intro id' hid
      rcases List.mem_cons.mp hid with rfl | hid
      · exact ⟨hnumber, _, hself, List.mem_append_right _ (List.mem_singleton_self _)⟩
      · exact hworks.sent id' hid
  · intro id' σ' hσ' e he
    have hold (σ : Subscription) (hσ : h.subscriptions[id']? = some σ) (he : e ∈ σ.received) :
        σ.Wants e.key ∧ ∃ c ∈ h.callbacks.set i
          { cb with phase := .sending due, sent := id :: cb.sent }, id' ∈ c.sent ∧ c.event = e := by
      refine ⟨(hs.received id' σ hσ e he).1, ?_⟩
      exact exists_set hcb (fun hP => ⟨List.mem_cons_of_mem _ hP.1, hP.2⟩)
        (hs.received id' σ hσ e he).2
    obtain ⟨σ, hσ, ⟨rfl, rfl⟩ | ⟨_, rfl⟩⟩ := modify_cases hσ'
    · rcases List.mem_append.mp he with he | he
      · exact hold σ hσ he
      · rw [List.mem_singleton.mp he]
        obtain ⟨σ₁, hσ₁, hwants⟩ := (hs.works cb hmem).due _ hphase id List.mem_cons_self
        rw [hσ] at hσ₁
        obtain rfl := Option.some.inj hσ₁
        exact ⟨hwants, _, List.mem_set (List.getElem?_eq_some_iff.mp hcb).1 _, List.mem_cons_self,
          rfl⟩
    · exact hold _ hσ he
  · intro j c hj id' σ' hσ' hopened hsince hwants
    have hbefore : ∃ σ, h.subscriptions[id']? = some σ ∧ σ.opened = true ∧ σ.since ≤ j ∧
        σ.Wants c.m.key := by
      obtain ⟨σ, hσ, ⟨_, rfl⟩ | ⟨_, rfl⟩⟩ := modify_cases hσ'
      · exact ⟨σ, hσ, hopened, hsince, hwants⟩
      · exact ⟨_, hσ, hopened, hsince, hwants⟩
    obtain ⟨σ, hσ, hopened, hsince, hwants⟩ := hbefore
    rcases getElem?_set_cases hj with ⟨rfl, rfl⟩ | ⟨_, hj'⟩
    · have hreach := hs.reach i cb hcb id' σ hσ hopened hsince hwants
      rw [Reaches, hphase] at hreach
      rcases hreach with hdue | hsent
      · rcases List.mem_cons.mp hdue with rfl | hdue
        · exact Or.inr List.mem_cons_self
        · exact Or.inl hdue
      · exact Or.inr (List.mem_cons_of_mem _ hsent)
    · exact hs.reach j c hj' id' σ hσ hopened hsince hwants
  · intro σ' hσ'
    obtain ⟨id', hid'⟩ := List.mem_iff_getElem?.mp hσ'
    obtain ⟨σ, hσ, ⟨rfl, rfl⟩ | ⟨_, rfl⟩⟩ := modify_cases hid'
    · rw [List.pairwise_append]
      refine ⟨hs.increasing σ (List.mem_of_getElem? hσ), List.pairwise_singleton _ _, ?_⟩
      intro e he e' he'
      rw [List.mem_singleton.mp he']
      exact hs.newer hn hcb hphase hopen hfits hσ e he
    · exact hs.increasing _ (List.mem_of_getElem? hσ)

/-- Senders are pruned where the receiver is gone. -/
theorem Served.prune (hs : Served h) {dead : List Nat}
    (hdead : ∀ id ∈ dead, ∃ σ, h.subscriptions[id]? = some σ ∧ σ.opened = false) :
    Served { h with subs := h.subs.prune dead } := by
  refine ⟨?_, ?_, hs.enabled, hs.works, hs.received, hs.reach, hs.increasing⟩
  · exact fun p id hhas => hs.subs p id ((Subs.has_prune _ _ p id).mp hhas).1
  · intro id σ hσ hopened p hp
    refine (Subs.has_prune _ _ p id).mpr ⟨hs.registered id σ hσ hopened p hp, fun hid => ?_⟩
    obtain ⟨σ', hσ', hclosed⟩ := hdead id hid
    rw [hσ] at hσ'
    obtain rfl := Option.some.inj hσ'
    rw [hopened] at hclosed
    cases hclosed

/-- An event is only sent where it fits, as long as subscribers get increasing numbers. -/
theorem Served.fits (hs : Served h) (order : Subs)
    (hincreasing : ∀ σ ∈ (h.advance i cb order).subscriptions,
      σ.received.Pairwise fun a b => a.seq < b.seq) (hcb : cb ∈ h.callbacks) : h.FitsSend cb := by
  intro id due hphase hopen
  obtain ⟨σ, hσ, _⟩ := of_isOpen hopen
  have hmem : { σ with received := σ.received ++ [cb.event] } ∈
      (h.advance i cb order).subscriptions := by
    unfold Hub.advance
    rw [hphase]
    dsimp only
    rw [if_pos hopen]
    refine List.mem_of_getElem? (i := id) ?_
    change (deliver h.subscriptions id cb.event)[id]? = _
    rw [deliver, List.getElem?_modify, hσ]
    simp
  have hbelow : ∀ e ∈ σ.received, e.seq < cb.number := fun e he =>
    (List.pairwise_append.mp (hincreasing _ hmem)).2.2 e he _ (List.mem_singleton_self _)
  have hgot (c : Callback) (hc : c ∈ h.callbacks) (hsent : id ∈ c.sent) :
      c.number < cb.number := by
    obtain ⟨_, σ', hσ', hevent⟩ := (hs.works c hc).sent id hsent
    rw [hσ] at hσ'
    obtain rfl := Option.some.inj hσ'
    exact hbelow _ hevent
  refine ⟨fun hsent => absurd (hgot cb hcb hsent) (Nat.lt_irrefl _), fun c hc hlt hsent => ?_⟩
  exact absurd (hgot c hc hsent) (Nat.lt_asymm hlt)

theorem Served.advance (hs : Served h) (hn : Numbered h) (hcb : h.callbacks[i]? = some cb)
    (hfits : h.FitsSend cb) (order : Subs) : Served (h.advance i cb order) := by
  have hmem := List.mem_of_getElem? hcb
  have hworks := hs.works cb hmem
  have hnone (hzero : cb.number = 0) : ∀ id, id ∉ cb.sent := fun id hid =>
    (hworks.sent id hid).1 hzero
  unfold Hub.advance
  split
  · next hphase =>
      refine hs.set hcb rfl rfl rfl rfl ⟨?_, hworks.dead, hworks.sent⟩ (fun _ hid => ⟨hid, rfl⟩) ?_
      · intro due hdue
        dsimp only at hdue
        split at hdue <;> cases hdue
      · intro id σ hσ
        cases hen : h.enabled with
        | false =>
            rw [hs.enabled hen] at hσ
            cases hσ
        | true => exact fun _ _ _ => trivial
  · next hphase =>
      have hsent := hnone (hn.early cb hmem (Or.inr hphase))
      refine hs.set hcb rfl rfl rfl rfl ⟨nofun, hworks.dead, ?_⟩ ?_ fun _ _ _ _ _ _ => trivial
      · exact fun id hid => absurd hid (hsent id)
      · exact fun id hid => absurd hid (hsent id)
  · next hphase =>
      exact hs.set hcb rfl rfl rfl rfl ⟨nofun, hworks.dead, hworks.sent⟩
        (fun _ hid => ⟨hid, rfl⟩) fun _ _ _ _ _ _ => trivial
  · next hphase =>
      split
      · next hperm =>
          have hhas := Subs.has_perm (List.isPerm_iff.mp hperm)
          refine hs.set hcb rfl rfl rfl rfl ⟨?_, hworks.dead, hworks.sent⟩
            (fun _ hid => ⟨hid, rfl⟩) ?_
          · intro due hdue id hid
            cases hdue
            obtain ⟨p, hp, hpre⟩ := (Subs.mem_matching order _ id).mp hid
            obtain ⟨σ, hσ, hmem⟩ := hs.subs p id ((hhas p id).mp hp)
            exact ⟨σ, hσ, p, hmem, hpre⟩
          · rintro id σ hσ hopened _ ⟨p, hp, hpre⟩
            refine Or.inl ((Subs.mem_matching order _ id).mpr ⟨p, (hhas p id).mpr ?_, hpre⟩)
            exact hs.registered id σ hσ hopened p hp
      · exact hs
  · next id due hphase =>
      split
      · next hopen => exact hs.send hn hcb hphase hopen hfits
      · next hclosed =>
          refine hs.set hcb rfl rfl rfl rfl ⟨?_, ?_, hworks.sent⟩ (fun _ hid => ⟨hid, rfl⟩) ?_
          · intro due' hdue id' hid
            cases hdue
            exact hworks.due _ hphase id' (List.mem_cons_of_mem _ hid)
          · intro id' hid
            rcases List.mem_cons.mp hid with rfl | hid
            · obtain ⟨σ, hσ, _⟩ := hworks.due _ hphase id' List.mem_cons_self
              exact ⟨σ, hσ, not_open_of_isOpen hclosed hσ⟩
            · exact hworks.dead id' hid
          · intro id' σ hσ hopened hsince hwants
            have hreach := hs.reach i cb hcb id' σ hσ hopened hsince hwants
            rw [Reaches, hphase] at hreach
            rcases hreach with hdue | hsent
            · rcases List.mem_cons.mp hdue with rfl | hdue
              · rw [not_open_of_isOpen hclosed hσ] at hopened
                cases hopened
              · exact Or.inl hdue
            · exact Or.inr hsent
  · next hphase =>
      refine hs.set hcb rfl rfl rfl rfl ⟨?_, hworks.dead, hworks.sent⟩ (fun _ hid => ⟨hid, rfl⟩) ?_
      · intro due hdue
        dsimp only at hdue
        split at hdue <;> cases hdue
      · intro id σ hσ hopened hsince hwants
        have hreach := hs.reach i cb hcb id σ hσ hopened hsince hwants
        rw [Reaches, hphase] at hreach
        have hsent := hreach.resolve_left nofun
        rw [Reaches]
        dsimp only
        split
        · next hsending => split at hsending <;> cases hsending
        · exact hsent
        · exact hsent
        · exact trivial
  · next hphase =>
      split
      · exact hs
      · have hdone : Served { h with callbacks := h.callbacks.set i { cb with phase := .done } } := by
          refine hs.set hcb rfl rfl rfl rfl ⟨nofun, hworks.dead, hworks.sent⟩
            (fun _ hid => ⟨hid, rfl⟩) ?_
          intro id σ hσ hopened hsince hwants
          have hreach := hs.reach i cb hcb id σ hσ hopened hsince hwants
          rw [Reaches, hphase] at hreach
          exact hreach
        exact hdone.prune hworks.dead
  · exact hs

end Serve

/-! ## Runs -/

/-- What is kept in every state. -/
structure Kept (h : Hub) : Prop where
  numbered : Numbered h
  log : LogKept h
  served : Served h

theorem kept_attach : Kept attach where
  numbered := ⟨nofun, nofun, nofun, nofun, fun _ hpos hle => absurd hpos (Nat.not_lt.mpr hle)⟩
  log := ⟨List.isChain_nil, nofun, nofun, nofun, nofun⟩
  served := ⟨nofun, nofun, fun _ => rfl, nofun, nofun, nofun, nofun⟩

theorem getElem?_concat_cases {α : Type} {l : List α} {a b : α} {j : Nat}
    (h : (l ++ [a])[j]? = some b) : l[j]? = some b ∨ (j = l.length ∧ b = a) := by
  rcases Nat.lt_or_ge j l.length with hlt | hge
  · rw [List.getElem?_append_left hlt] at h
    exact Or.inl h
  · rw [List.getElem?_append_right hge, List.getElem?_singleton] at h
    split at h
    · exact Or.inr ⟨by omega, (Option.some.inj h).symm⟩
    · cases h

/-- A callback that has just begun. -/
theorem Kept.commit {h : Hub} (hk : Kept h) (m : Mutation) : Kept (h.step (.commit m)) := by
  have hall {P : Callback → Prop} (hP : ∀ cb ∈ h.callbacks, P cb)
      (hnew : P { m := m, phase := .begun, number := 0, dead := [], sent := [] }) :
      ∀ cb ∈ (h.step (.commit m)).callbacks, P cb := by
    intro cb hcb
    rcases List.mem_append.mp hcb with hold | hnew'
    · exact hP cb hold
    · rw [List.mem_singleton.mp hnew']
      exact hnew
  have hex {P : Callback → Prop} (hP : ∃ cb ∈ h.callbacks, P cb) :
      ∃ cb ∈ (h.step (.commit m)).callbacks, P cb := by
    obtain ⟨cb, hcb, hcb'⟩ := hP
    exact ⟨cb, List.mem_append_left _ hcb, hcb'⟩
  obtain ⟨hn, hl, hs⟩ := hk
  refine ⟨⟨hall hn.le (Nat.zero_le _), hall hn.early fun _ => rfl,
      hall hn.late fun hbegun => absurd rfl hbegun, ?_, fun n hpos hle => hex (hn.all n hpos hle)⟩,
    ⟨hl.chain, fun e he => hex (hl.events e he), fun hnil => hall (hl.empty hnil) not_false,
      fun e he => hall (hl.newest e he) fun hP => absurd hP not_false, ?_⟩,
    ⟨hs.subs, hs.registered, hs.enabled, hall hs.works ⟨nofun, nofun, nofun⟩, ?_, ?_,
      hs.increasing⟩⟩
  · intro j k c c' hj hk hne heq
    rcases getElem?_concat_cases hj with hj' | ⟨_, rfl⟩
    · rcases getElem?_concat_cases hk with hk' | ⟨_, rfl⟩
      · exact hn.distinct j k c c' hj' hk' hne heq
      · exact absurd heq hne
    · exact absurd rfl hne
  · intro e he
    refine hall (fun c hc hP => hall (hl.filled e he c hc hP) fun hle _ => ?_) fun hP =>
      absurd hP not_false
    exact absurd (Nat.le_zero.mp hle) (hn.of_logged hc hP)
  · exact fun id σ hσ e he => ⟨(hs.received id σ hσ e he).1, hex (hs.received id σ hσ e he).2⟩
  · intro j c hj
    rcases getElem?_concat_cases hj with hj' | ⟨_, rfl⟩
    · exact hs.reach j c hj'
    · exact fun _ _ _ _ _ _ => trivial

theorem Kept.enable {h : Hub} (hk : Kept h) : Kept (h.step .enable) where
  numbered := ⟨hk.numbered.le, hk.numbered.early, hk.numbered.late, hk.numbered.distinct,
    hk.numbered.all⟩
  log := ⟨hk.log.chain, hk.log.events, hk.log.empty, hk.log.newest, hk.log.filled⟩
  served := ⟨hk.served.subs, hk.served.registered, nofun, hk.served.works, hk.served.received,
    hk.served.reach, hk.served.increasing⟩

/-- A subscription is registered under each of its prefixes, and has got nothing. -/
theorem Kept.subscribe {h : Hub} (hk : Kept h) (hen : h.enabled = true) (prefixes : List Bytes) :
    Kept (h.subscribe_prefixes prefixes) where
  numbered := ⟨hk.numbered.le, hk.numbered.early, hk.numbered.late, hk.numbered.distinct,
    hk.numbered.all⟩
  log := ⟨hk.log.chain, hk.log.events, hk.log.empty, hk.log.newest, hk.log.filled⟩
  served := by
    obtain ⟨_, _, hs⟩ := hk
    have hext := extends_append h.subscriptions
      [{ prefixes := prefixes, since := h.callbacks.length, opened := true, received := [] }]
    refine ⟨?_, ?_, ?_, fun cb hcb => (hs.works cb hcb).mono hext, ?_, ?_, ?_⟩
    · intro p id hhas
      rcases (Subs.has_register_all h.subs prefixes p _ id).mp hhas with hold | ⟨hp, rfl⟩
      · obtain ⟨σ, hσ, hp⟩ := hs.subs p id hold
        obtain ⟨σ', hσ', hprefixes, _, _⟩ := hext id σ hσ
        exact ⟨σ', hσ', hprefixes ▸ hp⟩
      · exact ⟨_, List.getElem?_concat_length, hp⟩
    · intro id σ hσ hopened p hp
      refine (Subs.has_register_all h.subs prefixes p _ id).mpr ?_
      rcases getElem?_concat_cases hσ with hσ' | ⟨rfl, rfl⟩
      · exact Or.inl (hs.registered id σ hσ' hopened p hp)
      · exact Or.inr ⟨hp, rfl⟩
    · intro hen'
      change h.enabled = false at hen'
      rw [hen] at hen'
      cases hen'
    · intro id σ hσ e he
      rcases getElem?_concat_cases hσ with hσ' | ⟨rfl, rfl⟩
      · exact hs.received id σ hσ' e he
      · cases he
    · intro j c hj id σ hσ hopened hsince hwants
      rcases getElem?_concat_cases hσ with hσ' | ⟨rfl, rfl⟩
      · exact hs.reach j c hj id σ hσ' hopened hsince hwants
      · exact absurd (List.getElem?_eq_some_iff.mp hj).1 (Nat.not_lt.mpr hsince)
    · intro σ hσ
      rcases List.mem_append.mp hσ with hold | hnew
      · exact hs.increasing σ hold
      · rw [List.mem_singleton.mp hnew]
        exact List.Pairwise.nil

theorem Kept.drop {h : Hub} (hk : Kept h) (id : Nat) : Kept (h.step (.drop id)) where
  numbered := ⟨hk.numbered.le, hk.numbered.early, hk.numbered.late, hk.numbered.distinct,
    hk.numbered.all⟩
  log := ⟨hk.log.chain, hk.log.events, hk.log.empty, hk.log.newest, hk.log.filled⟩
  served := by
    obtain ⟨_, _, hs⟩ := hk
    have hext : Extends h.subscriptions (h.step (.drop id)).subscriptions :=
      extends_modify (f := fun σ => { σ with opened := false })
        (fun _ => ⟨rfl, fun _ => rfl, List.Subset.refl _⟩) _ _
    refine ⟨?_, ?_, ?_, fun cb hcb => (hs.works cb hcb).mono hext, ?_, ?_, ?_⟩
    · intro p id' hhas
      obtain ⟨σ, hσ, hp⟩ := hs.subs p id' hhas
      obtain ⟨σ', hσ', hprefixes, _, _⟩ := hext id' σ hσ
      exact ⟨σ', hσ', hprefixes ▸ hp⟩
    · intro id' σ' hσ' hopened
      obtain ⟨σ, hσ, ⟨_, rfl⟩ | ⟨_, rfl⟩⟩ := modify_cases hσ'
      · cases hopened
      · exact hs.registered id' _ hσ hopened
    · intro hen
      change h.subscriptions.modify id _ = []
      rw [hs.enabled hen]
      exact List.modify_nil _ _
    · intro id' σ' hσ' e he
      obtain ⟨σ, hσ, ⟨_, rfl⟩ | ⟨_, rfl⟩⟩ := modify_cases hσ'
      · exact hs.received id' σ hσ e he
      · exact hs.received id' _ hσ e he
    · intro j c hj id' σ' hσ' hopened
      obtain ⟨σ, hσ, ⟨_, rfl⟩ | ⟨_, rfl⟩⟩ := modify_cases hσ'
      · cases hopened
      · exact hs.reach j c hj id' _ hσ hopened
    · intro σ' hσ'
      obtain ⟨id', hid'⟩ := List.mem_iff_getElem?.mp hσ'
      obtain ⟨σ, hσ, ⟨_, rfl⟩ | ⟨_, rfl⟩⟩ := modify_cases hid'
      · exact hs.increasing σ (List.mem_of_getElem? hσ)
      · exact hs.increasing _ (List.mem_of_getElem? hσ)

/-- A step that fits keeps subscribers in order. -/
theorem Kept.step {h : Hub} {act : Act} (hk : Kept h) (hfits : h.Fits act) :
    Kept (h.step act) := by
  cases act with
  | commit m => exact hk.commit m
  | next i order =>
      rw [Hub.step]
      split
      · next cb hcb =>
          obtain ⟨hlog, hsend⟩ := hfits cb hcb
          exact ⟨hk.numbered.advance hcb order, hk.log.advance hk.numbered hcb hlog order,
            hk.served.advance hk.numbered hcb hsend order⟩
      · exact hk
  | enable => exact hk.enable
  | subscribe prefixes =>
      rw [Hub.step]
      split
      · next hen => exact hk.subscribe hen.1 prefixes
      · exact hk
  | drop id => exact hk.drop id

/-- What is kept is what subscribers see. -/
theorem Kept.ordered {h : Hub} (hk : Kept h) : Ordered h where
  increasing := hk.served.increasing
  complete := by
    intro σ hσ hopened i cb hsince hcb hdone hwants
    obtain ⟨id, hid⟩ := List.mem_iff_getElem?.mp hσ
    have hreach := hk.served.reach i cb hcb id σ hid hopened hsince hwants
    rw [Reaches, hdone] at hreach
    obtain ⟨_, σ', hσ', hmem⟩ := (hk.served.works cb (List.mem_of_getElem? hcb)).sent id hreach
    rw [hid] at hσ'
    obtain rfl := Option.some.inj hσ'
    exact hmem
  only := by
    intro σ hσ e he
    obtain ⟨id, hid⟩ := List.mem_iff_getElem?.mp hσ
    obtain ⟨hwants, cb, hcb, hsent, hevent⟩ := hk.served.received id σ hid e he
    exact ⟨hwants, cb, hcb, ((hk.served.works cb hcb).sent id hsent).1, hevent⟩
  log := hk.log.chain
  retained := by
    intro e he
    obtain ⟨cb, hcb, hlogged, hevent⟩ := hk.log.events e he
    exact ⟨cb, hcb, hk.numbered.of_logged hcb hlogged, hevent⟩
  since := by
    intro n
    constructor
    · exact (ascending_of_chain hk.log.chain).filter _
    · intro e
      rw [cdc_since, List.mem_filter, decide_eq_true_eq]

/-- Where subscribers are in order after a step, the step fits. -/
theorem fits_of_ordered {h : Hub} {act : Act} (hk : Kept h) (hordered : Ordered (h.step act)) :
    h.Fits act := by
  cases act with
  | next i order =>
      intro cb hcb
      rw [Hub.step, hcb] at hordered
      dsimp only at hordered
      refine ⟨fun hphase => ?_, hk.served.fits order hordered.increasing (List.mem_of_getElem? hcb)⟩
      refine hk.log.fits ?_ hphase
      have hchain := hordered.log
      unfold Hub.advance at hchain
      rw [hphase] at hchain
      exact hchain
  | _ => exact trivial

theorem ordered_of_kept {h : Hub} (hk : Kept h) (acts : List Act) :
    (∀ done, done <+: acts → Ordered (h.run done)) ↔ h.FitsAll acts := by
  induction acts generalizing h with
  | nil =>
      refine iff_of_true ?_ trivial
      intro done hdone
      rw [List.prefix_nil.mp hdone]
      exact hk.ordered
  | cons act acts ih =>
      constructor
      · intro hall
        have hfits := fits_of_ordered hk (hall [act] (by simp))
        refine ⟨hfits, (ih (hk.step hfits)).mp fun done hdone => ?_⟩
        exact hall (act :: done) ((List.prefix_cons_inj act).mpr hdone)
      · rintro ⟨hfits, hrest⟩ done hdone
        cases done with
        | nil => exact hk.ordered
        | cons act' done =>
            obtain ⟨rfl, htail⟩ := List.cons_prefix_cons.mp hdone
            exact (ih (hk.step hfits)).mpr hrest done htail

def nested : List Bytes := [[0x61], [0x61, 0x62]]

/-- One commit with a key that has both prefixes, up to the last send of its callback. -/
def oneCommit : List Act :=
  [.enable, .subscribe nested, .commit { key := [0x61, 0x62], value := .int 1, ts := 1 },
    .next 0 [], .next 0 [], .next 0 [], .next 0 [([0x61], [0]), ([0x61, 0x62], [0])],
    .next 0 [], .next 0 []]

end Hub

end Reactive
end StrikeDB
