import MqttServerTest.Machine.Basic
import MqttServerTest.Sql.Table
import MqttServerTest.Sql.Transaction

/-!
# The device registry

The table `Devices` and the transaction with which `endpointHandler` registers the device behind
a new connection: rename the row of the remote address, or insert one if there is none.  The
address column has no index of its own; the name column has a unique one.

## Main results

* `Devices.upsert_ok` : what a registration that succeeds does to the table.
* `Devices.ips_nodup` : the addresses of the rows stay distinct, whatever connects.
* `Devices.registry_stable` : the table is keyed by the address, with a stable id.
-/

namespace MqttServerTest

/-- What the server's code can throw. -/
inductive Thrown where
  /-- A value is longer than its column. -/
  | dataTooLong
  /-- A unique index already holds the value. -/
  | duplicateKey
  /-- A foreign key refers to no row. -/
  | foreignKey
  /-- `first()` of an empty result. -/
  | noSuchElement
  /-- `!!` of `null`. -/
  | nullPointer
  deriving DecidableEq, Repr

/-- A row of `Devices`. -/
structure Device where
  name : String
  ip : String
  deriving DecidableEq, Repr

/-- The table `Devices`; `name` carries a unique index. -/
abbrev Devices := UniqueTable Device.name

namespace Devices

/-- The number of rows with address `host`. -/
def matching (d : Devices) (host : String) : ℕ := (d.table.select fun v => v.ip = host).length

/-- `Devices.update(where = { ip eq host }) { it[name] = clientIdentifier }`, with the number of
matching rows. -/
def updateName (d : Devices) (host clientIdentifier : String) : Except Thrown (ℕ × Devices) :=
  if d.matching host ≠ 0 ∧ 50 < clientIdentifier.length then .error .dataTooLong
  else match d.update? (fun v => v.ip = host) (fun v => { v with name := clientIdentifier }) with
    | some d' => .ok (d.matching host, d')
    | none => .error .duplicateKey

/-- `Devices.insert { ... } get Devices.id`.  A row that the index rejects has consumed a key. -/
def insertDevice (d : Devices) (name ip : String) : Except (Thrown × ℕ) (Devices × ℕ) :=
  if 50 < name.length ∨ 30 < ip.length then .error (.dataTooLong, 0)
  else match d.insert? ⟨name, ip⟩ with
    | some d' => .ok (d', d.table.next)
    | none => .error (.duplicateKey, 1)

/-- `Devices.select(where = { ip eq host }).first()[Devices.id]`. -/
def selectFirst (d : Devices) (host : String) : Except Thrown ℕ :=
  match (d.table.select fun v => v.ip = host).head? with
  | some r => .ok r.id
  | none => .error .noSuchElement

/-- The body of the transaction in `endpointHandler`; it computes `devId`. -/
def upsert (host clientIdentifier : String) (d : Devices) :
    Except (Thrown × ℕ) (Devices × ℕ) :=
  match d.updateName host clientIdentifier with
  | .error e => .error (e, 0)
  | .ok (0, d') => d'.insertDevice clientIdentifier host
  | .ok (_ + 1, d') => match d'.selectFirst host with
    | .ok devId => .ok (d', devId)
    | .error e => .error (e, 0)

/-- The transaction in `endpointHandler`. -/
def register (host clientIdentifier : String) : Transaction Devices Thrown ℕ where
  body := upsert host clientIdentifier
  cost d := if d.matching host = 0 then 1 else 0
  consume := UniqueTable.consume

/-- A connection attempt. -/
structure Attempt where
  host : String
  clientIdentifier : String
  faults : Faults
  deriving DecidableEq, Repr

/-- The table under connection attempts, one at a time, from the empty table. -/
def registry : Machine Devices Attempt where
  init := UniqueTable.create
  step d a := some ((register a.host a.clientIdentifier).run a.faults d).1

/-! ### What a registration does -/

theorem matching_eq_zero_iff {d : Devices} {host : String} :
    d.matching host = 0 ↔ ∀ r ∈ d.table.rows, r.val.ip ≠ host := by
  simp [matching, Table.select]

theorem updateName_ok {d d' : Devices} {host c : String} {n : ℕ}
    (h : d.updateName host c = .ok (n, d')) :
    n = d.matching host ∧
      d'.table = d.table.update (fun v => v.ip = host) (fun v => { v with name := c }) := by
  unfold updateName at h
  split_ifs at h
  cases hu : d.update? (fun v => v.ip = host) (fun v => { v with name := c }) with
  | none => simp [hu] at h
  | some d₁ =>
    simp only [hu, Except.ok.injEq, Prod.mk.injEq] at h
    obtain ⟨rfl, rfl⟩ := h
    exact ⟨rfl, UniqueTable.update?_eq_some hu⟩

theorem insertDevice_ok {d d' : Devices} {name ip : String} {devId : ℕ}
    (h : d.insertDevice name ip = .ok (d', devId)) :
    d'.table = d.table.insert ⟨name, ip⟩ ∧ devId = d.table.next := by
  unfold insertDevice at h
  split_ifs at h
  cases hi : d.insert? ⟨name, ip⟩ with
  | none => simp [hi] at h
  | some d₁ =>
    simp only [hi, Except.ok.injEq, Prod.mk.injEq] at h
    obtain ⟨rfl, rfl⟩ := h
    exact ⟨UniqueTable.insert?_eq_some hi, rfl⟩

/-- An update whose condition selects no row. -/
theorem update_of_matching_eq_zero {d : Devices} {host c : String} (h : d.matching host = 0) :
    d.table.update (fun v => v.ip = host) (fun v => { v with name := c }) = d.table := by
  have hne := matching_eq_zero_iff.1 h
  have hrows : (d.table.rows.map fun r =>
      if decide (r.val.ip = host) = true then ⟨r.id, { r.val with name := c }⟩ else r) =
      d.table.rows := by
    conv_rhs => rw [← List.map_id d.table.rows]
    exact List.map_congr_left fun r hr => by simp [hne r hr]
  unfold Table.update
  simp only [hrows]

/-- **What a registration that succeeds does**: it inserts a row for an unknown address, and
renames the rows of a known one. -/
theorem upsert_ok {host c : String} {d d' : Devices} {devId : ℕ}
    (h : upsert host c d = .ok (d', devId)) :
    (d.matching host = 0 ∧ d'.table = d.table.insert ⟨c, host⟩ ∧ devId = d.table.next) ∨
    (d.matching host ≠ 0 ∧ d'.selectFirst host = .ok devId ∧
      d'.table = d.table.update (fun v => v.ip = host) (fun v => { v with name := c })) := by
  unfold upsert at h
  cases hu : d.updateName host c with
  | error e => simp [hu] at h
  | ok p =>
    obtain ⟨n, d₁⟩ := p
    obtain ⟨hn, ht⟩ := updateName_ok hu
    rw [hu] at h
    cases n with
    | zero =>
      -- the insert is into the table after an update that has matched nothing
      obtain ⟨hi, hid⟩ := insertDevice_ok h
      rw [update_of_matching_eq_zero hn.symm] at ht
      rw [ht] at hi hid
      exact Or.inl ⟨hn.symm, hi, hid⟩
    | succ n =>
      cases hs : d₁.selectFirst host with
      | error e => simp [hs] at h
      | ok i =>
        simp only [hs, Except.ok.injEq, Prod.mk.injEq] at h
        obtain ⟨rfl, rfl⟩ := h
        exact Or.inr ⟨by omega, hs, ht⟩

theorem stable_rows (host c : String) : (register host c).Stable fun d => d.table.rows :=
  fun _ _ => rfl

/-- The rolled back attempts of a registration leave the rows as they were. -/
theorem rollbacks_rows (host c : String) (ns : List ℕ) (d : Devices) :
    (ns.foldl (register host c).rollback d).table.rows = d.table.rows :=
  Transaction.view_rollbacks (stable_rows host c) ns d

/-! ### Invariants -/

/-- A row stays with its key and its address. -/
def Keeps (d d' : Devices) : Prop :=
  ∀ r ∈ d.table.rows, ∃ r' ∈ d'.table.rows, r'.id = r.id ∧ r'.val.ip = r.val.ip

theorem Keeps.refl (d : Devices) : Keeps d d := fun r hr => ⟨r, hr, rfl, rfl⟩

theorem Keeps.of_rows {d d' : Devices} (h : d'.table.rows = d.table.rows) : Keeps d d' :=
  fun r hr => ⟨r, h ▸ hr, rfl, rfl⟩

theorem Keeps.trans {d₁ d₂ d₃ : Devices} (h : Keeps d₁ d₂) (h' : Keeps d₂ d₃) : Keeps d₁ d₃ := by
  intro r hr
  obtain ⟨r₂, hr₂, hid, hip⟩ := h r hr
  obtain ⟨r₃, hr₃, hid', hip'⟩ := h' r₂ hr₂
  exact ⟨r₃, hr₃, hid'.trans hid, hip'.trans hip⟩

theorem upsert_keeps {host c : String} {d d' : Devices} {devId : ℕ}
    (h : upsert host c d = .ok (d', devId)) : Keeps d d' := by
  intro r hr
  rcases upsert_ok h with ⟨-, ht, -⟩ | ⟨-, -, ht⟩
  · exact ⟨r, by rw [ht]; exact List.mem_append_left _ hr, rfl, rfl⟩
  · refine ⟨_, by rw [ht]; exact Table.mem_update.2 ⟨r, hr, rfl⟩, ?_, ?_⟩ <;> split_ifs <;> rfl

theorem register_keeps (host c : String) (faults : Faults) (d : Devices) :
    Keeps d ((register host c).run faults d).1 := by
  cases h : ((register host c).run faults d).2 with
  | error e => exact Keeps.of_rows (Transaction.view_run_error (stable_rows host c) h)
  | ok devId =>
    obtain ⟨-, hb⟩ := Transaction.run_ok (Prod.ext rfl h)
    exact (Keeps.of_rows (rollbacks_rows host c _ d)).trans (upsert_keeps hb)

/-- A registration removes no key. -/
theorem register_ids_subset (host c : String) (faults : Faults) (d : Devices) :
    d.table.ids ⊆ ((register host c).run faults d).1.table.ids := by
  intro i hi
  obtain ⟨r, hr, rfl⟩ := Table.mem_ids.1 hi
  obtain ⟨r', hr', hid, -⟩ := register_keeps host c faults d r hr
  exact Table.mem_ids.2 ⟨r', hr', hid⟩

/-- No two rows have the same address. -/
def IpsNodup (d : Devices) : Prop := (d.table.vals.map Device.ip).Nodup

theorem IpsNodup.of_rows {d d' : Devices} (hd : IpsNodup d)
    (h : d'.table.rows = d.table.rows) : IpsNodup d' := by
  unfold IpsNodup Table.vals at hd ⊢
  rwa [h]

theorem IpsNodup.eq {d : Devices} (hd : IpsNodup d) {r r' : Row Device} (hr : r ∈ d.table.rows)
    (hr' : r' ∈ d.table.rows) (h : r.val.ip = r'.val.ip) : r = r' := by
  have hn : (d.table.rows.map fun r => r.val.ip).Nodup := by
    simpa [IpsNodup, Table.vals, List.map_map, Function.comp_def] using hd
  exact List.inj_on_of_nodup_map hn hr hr' h

theorem upsert_ipsNodup {host c : String} {d d' : Devices} {devId : ℕ} (hd : IpsNodup d)
    (h : upsert host c d = .ok (d', devId)) : IpsNodup d' := by
  unfold IpsNodup at hd ⊢
  rcases upsert_ok h with ⟨hm, ht, -⟩ | ⟨-, -, ht⟩
  · -- the new address is that of no row
    have hne := matching_eq_zero_iff.1 hm
    rw [ht]
    simp only [Table.vals, Table.insert_rows, List.map_append, List.map_cons, List.map_nil] at hd ⊢
    refine List.nodup_append.2 ⟨hd, List.nodup_singleton _, ?_⟩
    intro a ha b hb
    obtain ⟨v, hv, rfl⟩ := List.mem_map.1 ha
    obtain ⟨r, hr, rfl⟩ := List.mem_map.1 hv
    rw [List.mem_singleton.1 hb]
    exact hne r hr
  · -- the update writes names only
    have hips : d'.table.vals.map Device.ip = d.table.vals.map Device.ip := by
      rw [ht]
      simp only [Table.vals, Table.update, List.map_map]
      refine List.map_congr_left fun r _ => ?_
      simp only [Function.comp_apply]; split_ifs <;> rfl
    rwa [hips]

theorem register_ipsNodup {d : Devices} (hd : IpsNodup d) (host c : String) (faults : Faults) :
    IpsNodup ((register host c).run faults d).1 := by
  cases h : ((register host c).run faults d).2 with
  | error e => exact hd.of_rows (Transaction.view_run_error (stable_rows host c) h)
  | ok devId =>
    obtain ⟨-, hb⟩ := Transaction.run_ok (Prod.ext rfl h)
    exact upsert_ipsNodup (hd.of_rows (rollbacks_rows host c _ d)) hb

/-- The addresses of the rows stay distinct, whatever connects. -/
theorem ips_nodup {d : Devices} (h : registry.Reachable d) : IpsNodup d := by
  refine h.invariant (I := IpsNodup) List.nodup_nil ?_
  intro d a d' _ hd hst
  cases hst
  exact register_ipsNodup hd a.host a.clientIdentifier a.faults

/-- The `else` branch of a registration finds a row: the update has matched one and keeps its
address. -/
theorem selectFirst_of_updateName {d d' : Devices} {host c : String} {n : ℕ}
    (h : d.updateName host c = .ok (n + 1, d')) : ∃ devId, d'.selectFirst host = .ok devId := by
  obtain ⟨hn, ht⟩ := updateName_ok h
  have hm : ¬ ∀ r ∈ d.table.rows, r.val.ip ≠ host := fun hall => by
    have := matching_eq_zero_iff.2 hall; omega
  push Not at hm
  obtain ⟨r, hr, hip⟩ := hm
  have hmem : (⟨r.id, { r.val with name := c }⟩ : Row Device) ∈
      d'.table.select fun v => v.ip = host := by
    refine List.mem_filter.2 ⟨?_, by simpa using hip⟩
    rw [ht]
    exact Table.mem_update.2 ⟨r, hr, by simp [hip]⟩
  unfold selectFirst
  cases hl : d'.table.select fun v => v.ip = host with
  | nil => rw [hl] at hmem; cases hmem
  | cons r₀ rs => exact ⟨r₀.id, rfl⟩

theorem upsert_ne_noSuchElement (host c : String) (d : Devices) (n : ℕ) :
    upsert host c d ≠ .error (.noSuchElement, n) := by
  unfold upsert
  cases hu : d.updateName host c with
  | error e =>
    unfold updateName at hu
    -- an update fails on a long name or on the unique index
    split_ifs at hu
    · cases hu; simp
    · cases hu' : d.update? (fun v => v.ip = host) (fun v => { v with name := c }) with
      | none => simp only [hu', Except.error.injEq] at hu; subst hu; simp
      | some d' => simp [hu'] at hu
  | ok p =>
    obtain ⟨k, d'⟩ := p
    cases k with
    | zero =>
      simp only [insertDevice]
      split_ifs
      · simp
      · cases d'.insert? ⟨c, host⟩ <;> simp
    | succ k =>
      obtain ⟨devId, hs⟩ := selectFirst_of_updateName hu
      simp [hs]

theorem mem_of_selectFirst {d : Devices} {host : String} {devId : ℕ}
    (h : d.selectFirst host = .ok devId) :
    ∃ r ∈ d.table.rows, r.val.ip = host ∧ r.id = devId := by
  unfold selectFirst at h
  cases hl : (d.table.select fun v => v.ip = host).head? with
  | none => simp [hl] at h
  | some r =>
    simp only [hl, Except.ok.injEq] at h
    have hr := List.mem_filter.1 (List.mem_of_head? hl)
    exact ⟨r, hr.1, by simpa using hr.2, h⟩

/-- The table after a registration that succeeds: the row of the address has the attempt's name
and the id `devId`, and the rows of other addresses are the same. -/
theorem upsert_row {host c : String} {d d' : Devices} {devId : ℕ} (hd : IpsNodup d)
    (h : upsert host c d = .ok (d', devId)) :
    (∀ r, r ∈ d'.table.rows ∧ r.val.ip = host ↔ r = ⟨devId, ⟨c, host⟩⟩) ∧
      ∀ r, r.val.ip ≠ host → (r ∈ d'.table.rows ↔ r ∈ d.table.rows) := by
  have hd' := upsert_ipsNodup hd h
  have hmem : (⟨devId, ⟨c, host⟩⟩ : Row Device) ∈ d'.table.rows := by
    rcases upsert_ok h with ⟨-, ht, rfl⟩ | ⟨-, hs, ht⟩
    · rw [ht]; exact List.mem_append_right _ (List.mem_singleton.2 rfl)
    · obtain ⟨r, hr, hip, rfl⟩ := mem_of_selectFirst hs
      have hr' := hr
      rw [ht] at hr'
      obtain ⟨r₀, hr₀, he⟩ := Table.mem_update.1 hr'
      by_cases h₀ : r₀.val.ip = host
      · simp only [h₀, decide_true, ↓reduceIte] at he
        rw [he] at hr ⊢
        exact hr
      · simp only [h₀, decide_false, Bool.false_eq_true, ↓reduceIte] at he
        exact absurd (he ▸ hip) h₀
  refine ⟨fun r => ⟨fun ⟨hr, hip⟩ => hd'.eq hr hmem hip, ?_⟩, fun r hne => ?_⟩
  · rintro rfl; exact ⟨hmem, rfl⟩
  · rcases upsert_ok h with ⟨-, ht, -⟩ | ⟨-, -, ht⟩
    · rw [ht, Table.insert_rows, List.mem_append, List.mem_singleton]
      exact ⟨fun hr => hr.resolve_right fun he => hne (by rw [he]), Or.inl⟩
    · rw [ht, Table.mem_update]
      constructor
      · rintro ⟨r₀, hr₀, he⟩
        by_cases h₀ : r₀.val.ip = host
        · simp only [h₀, decide_true, ↓reduceIte] at he
          exact absurd (by rw [he]) hne
        · simp only [h₀, decide_false, Bool.false_eq_true, ↓reduceIte] at he
          rwa [he]
      · exact fun hr => ⟨r, hr, by simp [hne]⟩

/-- The id that a registration returns is the key of a row. -/
theorem register_devId_mem {host c : String} {faults : Faults} {d d' : Devices} {devId : ℕ}
    (h : (register host c).run faults d = (d', .ok devId)) : devId ∈ d'.table.ids := by
  obtain ⟨-, hb⟩ := Transaction.run_ok h
  rcases upsert_ok hb with ⟨-, ht, rfl⟩ | ⟨-, hs, -⟩
  · rw [ht]
    exact Table.mem_ids.2 ⟨_, List.mem_append_right _ (List.mem_singleton.2 rfl), rfl⟩
  · obtain ⟨r, hr, -, rfl⟩ := mem_of_selectFirst hs
    exact Table.mem_ids.2 ⟨r, hr, rfl⟩

theorem keeps_of_runFrom {d d' : Devices} {bs : List Attempt}
    (h : registry.runFrom d bs = some d') : Keeps d d' := by
  induction bs generalizing d with
  | nil => cases h; exact Keeps.refl _
  | cons b bs ih => exact (register_keeps b.host b.clientIdentifier b.faults _).trans (ih h)

/-- **The registry is keyed by the address, with a stable id.**  After any sequence of connection
attempts no two rows share an address or a name; every later table keeps the row of an address
with its id; an attempt that succeeds leaves the address with exactly one row, named after the
attempt and with the id `devId`, and the rows of other addresses untouched; and no attempt fails
for want of the row it has just updated. -/
theorem registry_stable {as : List Attempt} {d : Devices} (h : registry.run as = some d) :
    (IpsNodup d ∧ (d.table.vals.map Device.name).Nodup) ∧
    (∀ bs d', registry.run (as ++ bs) = some d' → Keeps d d') ∧
    (∀ (a : Attempt) d' devId,
      (register a.host a.clientIdentifier).run a.faults d = (d', .ok devId) →
      (∀ r, r ∈ d'.table.rows ∧ r.val.ip = a.host ↔
        r = ⟨devId, ⟨a.clientIdentifier, a.host⟩⟩) ∧
      ∀ r, r.val.ip ≠ a.host → (r ∈ d'.table.rows ↔ r ∈ d.table.rows)) ∧
    ∀ a : Attempt, ((register a.host a.clientIdentifier).run a.faults d).2 ≠
      .error (.body .noSuchElement) := by
  have hd : IpsNodup d := ips_nodup ⟨as, h⟩
  refine ⟨⟨hd, d.unique⟩, fun bs d' hbs => ?_, fun a d' devId ha => ?_, fun a ha => ?_⟩
  · rw [Machine.run_append h] at hbs
    exact keeps_of_runFrom hbs
  · obtain ⟨-, hb⟩ := Transaction.run_ok ha
    have hrows := rollbacks_rows a.host a.clientIdentifier a.faults.aborted d
    obtain ⟨hrow, hother⟩ := upsert_row (hd.of_rows hrows) hb
    refine ⟨hrow, fun r hne => ?_⟩
    rw [hother r hne, hrows]
  · obtain ⟨n, hn⟩ := Transaction.run_body_error ha
    exact upsert_ne_noSuchElement _ _ _ n hn

/-- Two devices; the registration of the second is rolled back once, after its insert. -/
theorem registry_stable_two :
    ∃ d, registry.run [⟨"10.0.0.1", "esp32a", Faults.nothing⟩,
        ⟨"10.0.0.2", "esp32b", ⟨[1], none⟩⟩] = some d ∧
      d.table.rows = [⟨1, ⟨"esp32a", "10.0.0.1"⟩⟩, ⟨3, ⟨"esp32b", "10.0.0.2"⟩⟩] ∧
      IpsNodup d :=
  ⟨_, rfl, rfl, (registry_stable (show registry.run [⟨"10.0.0.1", "esp32a", Faults.nothing⟩,
    ⟨"10.0.0.2", "esp32b", ⟨[1], none⟩⟩] = some _ from rfl)).1.1⟩

end Devices

end MqttServerTest
