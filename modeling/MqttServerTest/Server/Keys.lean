import MqttServerTest.Server.Acceptance
import Mathlib.Algebra.Ring.Nat
import Mathlib.Data.List.Perm.Subperm

/-!
# Which key a device gets

A new address gets the next auto-increment key.  Attempts that fail or are retried lose keys, so
the id of a device is one more than the number of devices registered before it and of the keys lost
before it (`Devices.Accounts.of_run`).  What has been registered and lost is kept in a ledger, a
history variable of the registry.
-/

namespace MqttServerTest

namespace Devices

/-- The attempt inserts a row. -/
def Inserts (d : Devices) (a : Attempt) : Prop :=
  d.matching a.host = 0 ∧ a.faults.fatal = none ∧
    ¬ (50 < a.clientIdentifier.length ∨ 30 < a.host.length) ∧
    d.NameFree a.host a.clientIdentifier

instance (d : Devices) (a : Attempt) : Decidable (d.Inserts a) :=
  inferInstanceAs (Decidable (_ ∧ _))

/-- How many keys the attempt consumes without leaving a row: one for each insert that is rolled
back or that the index rejects. -/
def keysLost (d : Devices) (a : Attempt) : ℕ :=
  if d.matching a.host = 0 then
    (a.faults.aborted.map fun n => min n 1).sum + match a.faults.fatal with
      | some n => min n 1
      | none =>
        if 50 < a.clientIdentifier.length ∨ 30 < a.host.length then 0
        else if d.NameFree a.host a.clientIdentifier then 0 else 1
  else 0

/-- The ids with their addresses. -/
def keys (d : Devices) : List (ℕ × String) := d.table.rows.map fun r => (r.id, r.val.ip)

/-! ### What an attempt does to the keys -/

theorem upsert_of_matching_eq_zero {host c : String} {d : Devices} (hm : d.matching host = 0) :
    upsert host c d = d.insertDevice c host := by
  have ht := update_of_matching_eq_zero (c := c) hm
  have hn : ((d.table.update (fun v => v.ip = host) fun v => { v with name := c }).vals.map
      Device.name).Nodup := by
    rw [ht]; exact d.unique
  have hu : d.update? (fun v => v.ip = host) (fun v => { v with name := c }) = some ⟨_, hn⟩ :=
    dif_pos hn
  have hd : (⟨_, hn⟩ : Devices) = d := by
    cases d
    simpa using ht
  unfold upsert updateName
  rw [if_neg (by omega), hu, hd, hm]

theorem upsert_error_of_matching_ne_zero {host c : String} {d : Devices} {e : Thrown} {n : ℕ}
    (hm : d.matching host ≠ 0) (h : upsert host c d = .error (e, n)) : n = 0 := by
  unfold upsert at h
  cases hu : d.updateName host c with
  | error e' => simp only [hu, Except.error.injEq, Prod.mk.injEq] at h; exact h.2.symm
  | ok p =>
    obtain ⟨k, d'⟩ := p
    obtain ⟨hk, -⟩ := updateName_ok hu
    rw [hu] at h
    cases k with
    | zero => exact absurd hk.symm hm
    | succ k =>
      cases hs : d'.selectFirst host with
      | ok devId => simp [hs] at h
      | error e' =>
        simp only [hs, Except.error.injEq, Prod.mk.injEq] at h
        exact h.2.symm

/-- The insert of a new address. -/
theorem insertDevice_of_matching_eq_zero {host c : String} {d : Devices}
    (hm : d.matching host = 0) :
    (50 < c.length ∨ 30 < host.length) ∧ d.insertDevice c host = .error (.dataTooLong, 0) ∨
    ¬ (50 < c.length ∨ 30 < host.length) ∧ (¬ d.NameFree host c) ∧
      d.insertDevice c host = .error (.duplicateKey, 1) ∨
    ¬ (50 < c.length ∨ 30 < host.length) ∧ d.NameFree host c ∧
      ∃ d', d.insertDevice c host = .ok (d', d.table.next) := by
  by_cases hl : 50 < c.length ∨ 30 < host.length
  · exact Or.inl ⟨hl, by unfold insertDevice; rw [if_pos hl]⟩
  · refine Or.inr ?_
    by_cases hfree : d.NameFree host c
    · have hne := matching_eq_zero_iff.1 hm
      exact Or.inr ⟨hl, hfree, insertDevice_of_nameFree (by omega) (by omega) fun r hr hname =>
        hne r hr (hfree r hr hname)⟩
    · refine Or.inl ⟨hl, hfree, ?_⟩
      cases hi : d.insert? ⟨c, host⟩ with
      | none => simp only [insertDevice, if_neg hl, hi]
      | some d' =>
        have hok : upsert host c d = .ok (d', d.table.next) := by
          rw [upsert_of_matching_eq_zero hm]
          simp only [insertDevice, if_neg hl, hi]
        exact absurd (nameFree_of_upsert_ok hok) hfree

/-- Rolled back attempts lose at most one key each, and none if the address is known. -/
theorem rollbacks_next (host c : String) (ns : List ℕ) (d : Devices) :
    (ns.foldl (register host c).rollback d).table.next =
      d.table.next + if d.matching host = 0 then (ns.map fun n => min n 1).sum else 0 := by
  induction ns generalizing d with
  | nil => simp
  | cons n ns ih =>
    rw [List.foldl_cons, ih]
    show d.table.next + min n (if d.matching host = 0 then 1 else 0) +
      (if d.matching host = 0 then _ else 0) = _
    split_ifs with hm
    · rw [List.map_cons, List.sum_cons, Nat.add_assoc]
    · simp

theorem rollback_next (host c : String) (n : ℕ) (d : Devices) :
    ((register host c).rollback d n).table.next =
      d.table.next + if d.matching host = 0 then min n 1 else 0 := by
  show d.table.next + min n (if d.matching host = 0 then 1 else 0) = _
  split_ifs <;> simp

theorem keys_of_rows {d d' : Devices} (h : d'.table.rows = d.table.rows) : d'.keys = d.keys := by
  unfold keys
  rw [h]

theorem keys_of_update {d d' : Devices} {host c : String}
    (h : d'.table = d.table.update (fun v => v.ip = host) fun v => { v with name := c }) :
    d'.keys = d.keys ∧ d'.table.next = d.table.next := by
  refine ⟨?_, by rw [h]; rfl⟩
  unfold keys
  rw [h]
  simp only [Table.update, List.map_map]
  refine List.map_congr_left fun r _ => ?_
  simp only [Function.comp_apply]
  split_ifs <;> rfl

/-- The attempt of a known address keeps all keys and loses none. -/
theorem register_keys_known {d : Devices} {host c : String} {faults : Faults}
    (hm : d.matching host ≠ 0) :
    ((register host c).run faults d).1.keys = d.keys ∧
      ((register host c).run faults d).1.table.next = d.table.next := by
  have hrows := rollbacks_rows host c faults.aborted d
  have hnext := rollbacks_next host c faults.aborted d
  have hm₁ : (faults.aborted.foldl (register host c).rollback d).matching host ≠ 0 := by
    unfold matching Table.select at hm ⊢
    rwa [hrows]
  rw [if_neg hm, Nat.add_zero] at hnext
  rw [← keys_of_rows hrows, ← hnext]
  unfold Transaction.run
  generalize faults.aborted.foldl (register host c).rollback d = d₁ at hm₁
  cases faults.fatal with
  | some n => exact ⟨keys_of_rows rfl, by rw [rollback_next, if_neg hm₁, Nat.add_zero]⟩
  | none =>
    cases hb : (register host c).body d₁ with
    | ok p =>
      obtain ⟨d₂, devId⟩ := p
      simp only [hb]
      rcases upsert_ok hb with ⟨h, -, -⟩ | ⟨-, -, ht⟩
      · exact absurd h hm₁
      · exact keys_of_update ht
    | error p =>
      obtain ⟨e, n⟩ := p
      obtain rfl : n = 0 := upsert_error_of_matching_ne_zero hm₁ hb
      simp only [hb]
      exact ⟨keys_of_rows rfl, rfl⟩

/-- The attempt of a new address. -/
theorem register_keys_new {d : Devices} {a : Attempt} (hm : d.matching a.host = 0) :
    ((register a.host a.clientIdentifier).run a.faults d).1.keys = d.keys ++
        (if d.Inserts a then [(d.table.next + d.keysLost a, a.host)] else []) ∧
      ((register a.host a.clientIdentifier).run a.faults d).1.table.next =
        d.table.next + d.keysLost a + if d.Inserts a then 1 else 0 := by
  obtain ⟨host, c, aborted, fatal⟩ := a
  have hrows := rollbacks_rows host c aborted d
  have hnext := rollbacks_next host c aborted d
  have hm₁ : (aborted.foldl (register host c).rollback d).matching host = 0 := by
    unfold matching Table.select at hm ⊢
    rwa [hrows]
  have hfree : (aborted.foldl (register host c).rollback d).NameFree host c ↔ d.NameFree host c :=
    NameFree.of_rows hrows
  rw [if_pos hm] at hnext
  rw [← keys_of_rows hrows]
  unfold Transaction.run keysLost
  simp only [hm, ↓reduceIte, Inserts, true_and]
  generalize aborted.foldl (register host c).rollback d = d₁ at hm₁ hnext hfree
  cases fatal with
  | some n =>
    simp only [reduceCtorEq, false_and, ↓reduceIte, List.append_nil, Nat.add_zero]
    exact ⟨keys_of_rows rfl, by rw [rollback_next, if_pos hm₁, hnext, Nat.add_assoc]⟩
  | none =>
    have hb : (register host c).body d₁ = d₁.insertDevice c host := upsert_of_matching_eq_zero hm₁
    simp only [hb, true_and]
    rcases insertDevice_of_matching_eq_zero (c := c) hm₁ with
      ⟨hl, hi⟩ | ⟨hl, hf, hi⟩ | ⟨hl, hf, d₂, hi⟩
    · simp only [hi, hl, not_true_eq_false, false_and, ↓reduceIte, List.append_nil, Nat.add_zero]
      exact ⟨keys_of_rows rfl, hnext⟩
    · rw [hfree] at hf
      simp only [hi, hl, hf, not_false_eq_true, and_false, ↓reduceIte, List.append_nil,
        Nat.add_zero]
      exact ⟨keys_of_rows rfl, by rw [← Nat.add_assoc, ← hnext]; rfl⟩
    · rw [hfree] at hf
      obtain ⟨ht, -⟩ := insertDevice_ok hi
      simp only [hi, hl, hf, not_false_eq_true, and_true, ↓reduceIte, Nat.add_zero]
      rw [← hnext]
      refine ⟨?_, by rw [ht]; rfl⟩
      unfold keys
      rw [ht, Table.insert_rows, List.map_append]
      rfl

/-- **What an attempt does to the keys**: it loses some, and takes the next one if it inserts a
row. -/
theorem register_keys (d : Devices) (a : Attempt) :
    ((register a.host a.clientIdentifier).run a.faults d).1.keys = d.keys ++
        (if d.Inserts a then [(d.table.next + d.keysLost a, a.host)] else []) ∧
      ((register a.host a.clientIdentifier).run a.faults d).1.table.next =
        d.table.next + d.keysLost a + if d.Inserts a then 1 else 0 := by
  by_cases hm : d.matching a.host = 0
  · exact register_keys_new hm
  · have hins : ¬ d.Inserts a := fun h => hm h.1
    have hlost : d.keysLost a = 0 := if_neg hm
    rw [if_neg hins, if_neg hins, hlost, List.append_nil]
    exact register_keys_known hm

/-! ### The ledger -/

/-- A row has been inserted. -/
structure Registration where
  host : String
  /-- How many rows there were. -/
  devices : ℕ
  /-- How many keys had been lost. -/
  lost : ℕ
  deriving DecidableEq, Repr

/-- What the attempts so far have registered, and how many keys they have lost. -/
structure Ledger where
  registrations : List Registration
  lost : ℕ

/-- The ledger after an attempt on the table `d`. -/
def Ledger.attempt (g : Ledger) (d : Devices) (a : Attempt) : Ledger :=
  let lost := g.lost + d.keysLost a
  ⟨g.registrations ++
    if d.Inserts a then [⟨a.host, d.table.rows.length, lost⟩] else [], lost⟩

/-- The ledger after the attempts `as`. -/
def ledger (as : List Attempt) : Ledger := registry.history Ledger.attempt ⟨[], 0⟩ as

/-- What the ledger says about the table. -/
structure Accounts (d : Devices) (g : Ledger) : Prop where
  next : d.table.next = 1 + d.table.rows.length + g.lost
  keys : d.keys = g.registrations.map fun x => (1 + x.devices + x.lost, x.host)
  bounds : ∀ x ∈ g.registrations, x.devices < d.table.rows.length ∧ x.lost ≤ g.lost

theorem length_keys (d : Devices) : d.keys.length = d.table.rows.length := List.length_map _

namespace Accounts

variable {d : Devices} {g : Ledger}

theorem attempt (h : Accounts d g) (a : Attempt) :
    Accounts ((register a.host a.clientIdentifier).run a.faults d).1 (g.attempt d a) := by
  obtain ⟨hkeys, hnext⟩ := register_keys d a
  have hlen := congrArg List.length hkeys
  rw [length_keys, List.length_append, length_keys] at hlen
  simp only [Ledger.attempt]
  by_cases hins : d.Inserts a
  · simp only [hins, ↓reduceIte, List.length_singleton] at hkeys hnext hlen ⊢
    refine ⟨?_, ?_, fun x hx => ?_⟩
    · rw [hnext, hlen, h.next]
      dsimp only
      omega
    · rw [hkeys, h.keys, List.map_append, h.next]
      simp only [List.map_cons, List.map_nil, List.append_cancel_left_eq, List.cons.injEq,
        Prod.mk.injEq, and_true]
      omega
    · rcases List.mem_append.1 hx with hx | hx
      · have hb := h.bounds x hx
        dsimp only
        omega
      · rw [List.mem_singleton.1 hx]
        dsimp only
        omega
  · simp only [hins, ↓reduceIte, List.length_nil, List.append_nil, Nat.add_zero]
      at hkeys hnext hlen ⊢
    refine ⟨?_, hkeys.trans h.keys, fun x hx => ?_⟩
    · rw [hnext, hlen, h.next]
      dsimp only
      omega
    · have hb := h.bounds x hx
      dsimp only
      omega

/-- **The ledger accounts for every key**, after any attempts. -/
theorem of_run {as : List Attempt} (h : registry.run as = some d) : Accounts d (ledger as) := by
  refine Machine.history_invariant (I := Accounts) ⟨rfl, rfl, fun x hx => ?_⟩ ?_ h
  · cases hx
  · intro d g a d' _ hI hst
    cases hst
    exact hI.attempt a

/-- A device has been registered. -/
theorem exists_registration (h : Accounts d g) {r : Row Device} (hr : r ∈ d.table.rows) :
    ∃ x ∈ g.registrations, x.host = r.val.ip ∧ r.id = 1 + x.devices + x.lost := by
  have hk : (r.id, r.val.ip) ∈ d.keys := List.mem_map.2 ⟨r, hr, rfl⟩
  rw [h.keys] at hk
  obtain ⟨x, hx, he⟩ := List.mem_map.1 hk
  rw [Prod.mk.injEq] at he
  exact ⟨x, hx, he.2, he.1.symm⟩

/-- The id of a device, from the registration of its address. -/
theorem id_eq (h : Accounts d g) (hd : IpsNodup d) {r : Row Device} (hr : r ∈ d.table.rows)
    {x : Registration} (hx : x ∈ g.registrations) (hip : x.host = r.val.ip) :
    r.id = 1 + x.devices + x.lost := by
  have hk : (1 + x.devices + x.lost, x.host) ∈ d.keys := by
    rw [h.keys]
    exact List.mem_map.2 ⟨x, hx, rfl⟩
  obtain ⟨r', hr', he⟩ := List.mem_map.1 hk
  rw [Prod.mk.injEq] at he
  rw [← he.1, hd.eq hr' hr (he.2.trans hip)]

end Accounts

/-- The address of every device has made an attempt. -/
theorem exists_attempt {as : List Attempt} {d : Devices} (h : registry.run as = some d)
    {r : Row Device} (hr : r ∈ d.table.rows) : ∃ a ∈ as, a.host = r.val.ip := by
  have hkeys : ∀ k ∈ d.keys, ∃ a ∈ as, a.host = k.2 := by
    refine Machine.run_induction (M := registry)
      (P := fun as d => ∀ k ∈ d.keys, ∃ a ∈ as, a.host = k.2) (fun k hk => by cases hk) ?_ h
    intro as d a d' _ ih hst k hk
    cases hst
    rw [(register_keys d a).1] at hk
    rcases List.mem_append.1 hk with hk | hk
    · obtain ⟨a', ha', hhost⟩ := ih k hk
      exact ⟨a', List.mem_append_left _ ha', hhost⟩
    · split_ifs at hk with hins
      · rw [List.mem_singleton.1 hk]
        exact ⟨a, List.mem_append_right _ (List.mem_singleton_self a), rfl⟩
      · cases hk
  exact hkeys (r.id, r.val.ip) (List.mem_map.2 ⟨r, hr, rfl⟩)

/-- Attempts from two addresses leave at most two rows. -/
theorem length_rows_le_two {as : List Attempt} {d : Devices} (h : registry.run as = some d)
    {host₁ host₂ : String} (hhosts : ∀ a ∈ as, a.host = host₁ ∨ a.host = host₂) :
    d.table.rows.length ≤ 2 := by
  have hnodup := ips_nodup (Machine.Reachable.of_run h)
  have hsub : d.table.vals.map Device.ip ⊆ [host₁, host₂] := by
    intro ip hip
    obtain ⟨v, hv, rfl⟩ := List.mem_map.1 hip
    obtain ⟨r, hr, rfl⟩ := List.mem_map.1 hv
    obtain ⟨a, ha, hhost⟩ := exists_attempt h hr
    rw [← hhost]
    simpa using hhosts a ha
  have hlen := (List.subperm_of_subset hnodup hsub).length_le
  rwa [List.length_map, Table.vals, List.length_map] at hlen

/-- No device has the id 0. -/
theorem ids_pos {d : Devices} (h : registry.Reachable d) {i : ℕ} (hi : i ∈ d.table.ids) :
    0 < i := by
  obtain ⟨as, has⟩ := h
  obtain ⟨r, hr, rfl⟩ := Table.mem_ids.1 hi
  obtain ⟨x, -, -, hid⟩ := (Accounts.of_run has).exists_registration hr
  omega

end Devices

end MqttServerTest
