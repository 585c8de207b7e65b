import Mathlib.Data.List.Basic
import Mathlib.Data.Nat.Notation
import Mathlib.Tactic.TypeStar

/-!
# Input that arrives in chunks

A consumer is called with every chunk of its input and keeps a state in between.  Within a call it
takes one *turn* after the other, each on what is left of the chunk, until nothing is left; a turn
may fault, and the loop may never end.

A turn that works on many elements at once outputs something else when the input is cut within it,
so outputs are compared after a *normalisation* that divides them.  `Splits` says of one turn that
a cut changes nothing else; then the loop does not depend on where the input is cut
(`observe_call_append`), into however many chunks (`observe_calls`).

* `Returns turn s d r` : on `d` the loop ends, with `r`.
* `loop turn n` : the loop, for at most `n` turns.
* `Takes turn n s d s' os` : the loop takes `d` off its input, and goes on from `s'`.
* `call`, `calls` : the loop on one chunk, and on one chunk after the other.
-/

namespace MqttServerTest

namespace Chunked

variable {σ β ω ν ε : Type*}

/-- Output `os` first. -/
def prepend (os : List ω) (r : Except ε (σ × List ω)) : Except ε (σ × List ω) :=
  r.map fun x => (x.1, os ++ x.2)

/-- The outcome, with every output divided by `norm`. -/
def observe (norm : ω → List ν) (r : Except ε (σ × List ω)) : Except ε (σ × List ν) :=
  r.map fun x => (x.1, x.2.flatMap norm)

/-- First the outcome `r`, then `f` from its state. -/
def andThen (r : Except ε (σ × List ω)) (f : σ → Except ε (σ × List ω)) :
    Except ε (σ × List ω) :=
  match r with
  | .error e => .error e
  | .ok (s, os) => prepend os (f s)

variable {norm : ω → List ν} {os : List ω} {s : σ} {e : ε} {r r' : Except ε (σ × List ω)}

@[simp] theorem prepend_error : prepend os (.error e : Except ε (σ × List ω)) = .error e := rfl

@[simp] theorem prepend_ok {os' : List ω} :
    prepend os (.ok (s, os') : Except ε (σ × List ω)) = .ok (s, os ++ os') := rfl

@[simp] theorem prepend_nil : prepend [] r = r := by
  cases r <;> rfl

theorem prepend_append {os' : List ω} : prepend (os ++ os') r = prepend os (prepend os' r) := by
  cases r <;> simp [prepend, Except.map]

theorem observe_prepend :
    observe norm (prepend os r) = prepend (os.flatMap norm) (observe norm r) := by
  cases r <;> simp [observe, prepend, Except.map]

/-- Only the normalised outputs of the part before matter. -/
theorem observe_prepend_congr {os' : List ω} (h : os.flatMap norm = os'.flatMap norm) :
    observe norm (prepend os r) = observe norm (prepend os' r) := by
  rw [observe_prepend, observe_prepend, h]

/-! ### The loop -/

section Loop

variable (turn : σ → List β → Except ε (σ × List ω × List β))

/-- On the input `d`, from `s`, the loop `do turn while (something is left)` ends with `r`. -/
inductive Returns : σ → List β → Except ε (σ × List ω) → Prop
  /-- The turn faults. -/
  | fault {s : σ} {d : List β} {e : ε} : turn s d = .error e → Returns s d (.error e)
  /-- The turn leaves nothing. -/
  | last {s s' : σ} {d : List β} {os : List ω} : turn s d = .ok (s', os, []) →
      Returns s d (.ok (s', os))
  /-- Something is left. -/
  | next {s s' : σ} {d rest : List β} {os : List ω} {r : Except ε (σ × List ω)} :
      turn s d = .ok (s', os, rest) → rest ≠ [] → Returns s' rest r →
      Returns s d (prepend os r)

/-- The loop, for at most `n` turns; `none` if it has not ended. -/
def loop : ℕ → σ → List β → Option (Except ε (σ × List ω))
  | 0, _, _ => none
  | n + 1, s, d => match turn s d with
    | .error e => some (.error e)
    | .ok (s', os, rest) =>
      if rest.isEmpty then some (.ok (s', os)) else (loop n s' rest).map (prepend os)

/-- Every turn that leaves something decreases `μ`, or else changes nothing at all. -/
def Bounded (μ : σ → List β → ℕ) : Prop :=
  ∀ s d s' os rest, turn s d = .ok (s', os, rest) → rest ≠ [] →
    μ s' rest < μ s d ∨ s' = s ∧ os = [] ∧ rest = d

variable {turn} {d : List β}

theorem returns_of_loop {n : ℕ} (h : loop turn n s d = some r) : Returns turn s d r := by
  induction n generalizing s d r with
  | zero => cases h
  | succ n ih =>
    rw [loop] at h
    split at h
    · rename_i hturn
      cases h
      exact .fault hturn
    · rename_i hturn
      split_ifs at h with hrest
      · cases h
        rw [List.isEmpty_iff.1 hrest] at hturn
        exact .last hturn
      · obtain ⟨r₁, hr₁, rfl⟩ := Option.map_eq_some_iff.1 h
        exact .next hturn (fun hnil => hrest (List.isEmpty_iff.2 hnil)) (ih hr₁)

/-- **A bound on the turns**: a loop that ends does so within the measure. -/
theorem Returns.loop_eq {μ : σ → List β → ℕ} (hμ : Bounded turn μ) (h : Returns turn s d r)
    {n : ℕ} (hn : μ s d < n) : loop turn n s d = some r := by
  induction h generalizing n with
  | fault hf =>
    obtain ⟨n, rfl⟩ : ∃ k, n = k + 1 := ⟨n - 1, by omega⟩
    rw [loop, hf]
  | last hl =>
    obtain ⟨n, rfl⟩ : ∃ k, n = k + 1 := ⟨n - 1, by omega⟩
    rw [loop, hl]
    rfl
  | next hnext hne _ ih =>
    rcases hμ _ _ _ _ _ hnext hne with hlt | ⟨rfl, rfl, rfl⟩
    · obtain ⟨n, rfl⟩ : ∃ k, n = k + 1 := ⟨n - 1, by omega⟩
      have hemp : ¬ _ = true := fun h => hne (List.isEmpty_iff.1 h)
      rw [loop, hnext]
      simp only [if_neg hemp, ih (show _ < n by omega), Option.map_some]
    · -- a turn that changes nothing can be left out
      rw [prepend_nil]
      exact ih hn

/-! ### Parts of the input -/

variable (turn) in
/-- The loop takes `d` off an input of fewer than `n` elements and goes on from `s'`. -/
inductive Takes (n : ℕ) : σ → List β → σ → List ω → Prop
  | nil {s : σ} : Takes n s [] s []
  | turn {s s' s'' : σ} {d d' : List β} {os os' : List ω} : d ≠ [] →
      (∀ rest, (d ++ rest).length < n → turn s (d ++ rest) = .ok (s', os, rest)) →
      Takes n s' d' s'' os' → Takes n s (d ++ d') s'' (os ++ os')

variable {n : ℕ} {s' s'' : σ} {d' : List β} {os' : List ω}

theorem Takes.single (hd : d ≠ [])
    (h : ∀ rest, (d ++ rest).length < n → turn s (d ++ rest) = .ok (s', os, rest)) :
    Takes turn n s d s' os := by
  have := Takes.turn hd h .nil
  rwa [List.append_nil, List.append_nil] at this

/-- It takes nothing without turns. -/
theorem Takes.eq_of_nil (h : Takes turn n s [] s' os) : s' = s ∧ os = [] := by
  generalize hd : ([] : List β) = d at h
  cases h with
  | nil => exact ⟨rfl, rfl⟩
  | turn hne _ _ => exact absurd (List.append_eq_nil_iff.1 hd.symm).1 hne

theorem Takes.trans (h : Takes turn n s d s' os) (h' : Takes turn n s' d' s'' os') :
    Takes turn n s (d ++ d') s'' (os ++ os') := by
  induction h with
  | nil => exact h'
  | turn hd hturn _ ih =>
    rw [List.append_assoc, List.append_assoc]
    exact .turn hd hturn (ih h')

/-- The first part of an input. -/
theorem Takes.returns_append (h : Takes turn n s d s' os) (hd' : d' ≠ [])
    (hn : (d ++ d').length < n) (h' : Returns turn s' d' r) :
    Returns turn s (d ++ d') (prepend os r) := by
  induction h with
  | nil => rwa [prepend_nil]
  | turn _ hturn _ ih =>
    rw [List.append_assoc] at hn ⊢
    rw [prepend_append]
    have hrest := ih (by rw [List.length_append] at hn; omega) h'
    exact .next (hturn _ hn) (by simp [hd']) hrest

/-- All of an input. -/
theorem Takes.returns (h : Takes turn n s d s' os) (hd : d ≠ []) (hn : d.length < n) :
    Returns turn s d (.ok (s', os)) := by
  induction h with
  | nil => exact absurd rfl hd
  | @turn s s' s'' d d' os os' hne hturn hrest ih =>
    have hfirst := hturn d' hn
    by_cases hd' : d' = []
    · subst hd'
      generalize hnil : [] = d' at hrest
      cases hrest with
      | nil =>
        rw [List.append_nil os]
        exact .last hfirst
      | turn hne' => exact absurd (List.append_eq_nil_iff.1 hnil.symm).1 hne'
    · rw [List.length_append] at hn
      exact .next hfirst hd' (ih hd' (by omega))

end Loop

/-! ### Cutting the input -/

section Splits

variable (turn : σ → List β → Except ε (σ × List ω × List β)) (norm : ω → List ν)

/-- What a turn does on `a ++ b`, compared with a turn on `a`. -/
inductive Split (s : σ) (a b : List β) : Prop
  /-- It faults in both. -/
  | fault {e : ε} : turn s a = .error e → turn s (a ++ b) = .error e → Split s a b
  /-- It ends before the cut. -/
  | before {s' : σ} {os : List ω} {rest : List β} : turn s a = .ok (s', os, rest) → rest ≠ [] →
      turn s (a ++ b) = .ok (s', os, rest ++ b) → Split s a b
  /-- It ends at the cut. -/
  | at_cut {s' : σ} {os : List ω} : turn s a = .ok (s', os, []) →
      turn s (a ++ b) = .ok (s', os, b) → Split s a b
  /-- The cut divides it in two. -/
  | within {s' s'' : σ} {os os₁ os₂ : List ω} {rest : List β} : turn s a = .ok (s', os, []) →
      turn s' b = .ok (s'', os₁, rest) → turn s (a ++ b) = .ok (s'', os₂, rest) →
      (os ++ os₁).flatMap norm = os₂.flatMap norm → Split s a b

/-- A cut changes nothing, in the states that are `Good` for the number of elements to come. -/
structure Splits (Good : σ → ℕ → Prop) : Prop where
  split : ∀ {s a b}, a ≠ [] → b ≠ [] → Good s (a ++ b).length → Split turn norm s a b
  good : ∀ {s d s' os rest k}, Good s (d.length + k) → turn s d = .ok (s', os, rest) →
    Good s' (rest.length + k)
  mono : ∀ {s k n}, Good s (k + n) → Good s k

variable {turn norm} {Good : σ → ℕ → Prop} {a b : List β} {s' : σ}

/-- A fault on the first part is one on the whole. -/
theorem Splits.returns_error (H : Splits turn norm Good) (hb : b ≠ []) (ha : a ≠ [])
    (hgood : Good s (a ++ b).length) (h : Returns turn s a (.error e)) :
    Returns turn s (a ++ b) (.error e) := by
  generalize hr : (.error e : Except ε (σ × List ω)) = r at h
  induction h with
  | fault hf =>
    cases H.split ha hb hgood with
    | fault hf' hab => rw [hf] at hf'; cases hf'; cases hr; exact .fault hab
    | before hf' | at_cut hf' | within hf' => rw [hf] at hf'; cases hf'
  | last _ => cases hr
  | @next _ _ _ _ _ r hn hne _ ih =>
    have her : (.error e : Except ε (σ × List ω)) = r := by
      cases r with
      | error e' => exact hr
      | ok x => cases hr
    subst her
    cases H.split ha hb hgood with
    | fault hn' => rw [hn] at hn'; cases hn'
    | before hn' _ hab =>
      rw [hn] at hn'
      cases hn'
      have hrest := ih hne (H.good (k := 0) hgood hab) rfl
      exact .next hab (by simp [hne]) hrest
    | at_cut hn' | within hn' => rw [hn] at hn'; cases hn'; exact absurd rfl hne

/-- If the loop ends on the first part, and from there on the second, it ends on the whole. -/
theorem Splits.returns_append (H : Splits turn norm Good) (ha : a ≠ []) (hb : b ≠ [])
    (hgood : Good s (a ++ b).length) (h : Returns turn s a (.ok (s', os)))
    (h' : Returns turn s' b r) : ∃ r', Returns turn s (a ++ b) r' ∧
      observe norm r' = observe norm (prepend os r) := by
  generalize hr : (.ok (s', os) : Except ε (σ × List ω)) = r₁ at h
  induction h generalizing os with
  | fault _ => cases hr
  | last hl =>
    cases hr
    cases H.split ha hb hgood with
    | fault hl' => rw [hl] at hl'; cases hl'
    | before hl' hne => rw [hl] at hl'; cases hl'; exact absurd rfl hne
    | at_cut hl' hab =>
      rw [hl] at hl'
      cases hl'
      exact ⟨_, .next hab hb h', rfl⟩
    | within hl' hturn hab hnorm =>
      rw [hl] at hl'
      cases hl'
      -- the turn that the cut divides is the first one of the second part
      cases h' with
      | fault hf => rw [hturn] at hf; cases hf
      | last hf =>
        rw [hturn] at hf
        cases hf
        refine ⟨_, .last hab, ?_⟩
        rw [prepend_ok, observe, observe, Except.map, Except.map, hnorm]
      | next hf hne hrest =>
        rw [hturn] at hf
        cases hf
        refine ⟨_, .next hab hne hrest, ?_⟩
        rw [← prepend_append, observe_prepend_congr hnorm]
  | @next _ _ _ _ os₁ r₁ hn hne _ ih =>
    obtain ⟨os₂, rfl, rfl⟩ : ∃ os₂, r₁ = .ok (s', os₂) ∧ os = os₁ ++ os₂ := by
      cases r₁ with
      | error e => cases hr
      | ok x =>
        cases hr
        exact ⟨x.2, rfl, rfl⟩
    cases H.split ha hb hgood with
    | fault hn' => rw [hn] at hn'; cases hn'
    | before hn' _ hab =>
      rw [hn] at hn'
      cases hn'
      obtain ⟨r', hr', hobs⟩ := ih hne (H.good (k := 0) hgood hab) rfl
      refine ⟨_, .next hab (by simp [hne]) hr', ?_⟩
      rw [prepend_append, observe_prepend, hobs, ← observe_prepend]
    | at_cut hn' | within hn' => rw [hn] at hn'; cases hn'; exact absurd rfl hne

/-- If the loop ends on the whole, it ends on the first part, and, unless that is a fault, from
there on the second. -/
theorem Splits.returns_of_append (H : Splits turn norm Good) (ha : a ≠ []) (hb : b ≠ [])
    (hgood : Good s (a ++ b).length) (h : Returns turn s (a ++ b) r) :
    (∃ e, Returns turn s a (.error e)) ∨
      ∃ s' os r', Returns turn s a (.ok (s', os)) ∧ Returns turn s' b r' := by
  generalize hab : a ++ b = d at h hgood
  induction h generalizing a with
  | fault hf =>
    subst hab
    cases H.split ha hb hgood with
    | fault hf' _ => exact .inl ⟨_, .fault hf'⟩
    | before _ _ hf' | at_cut _ hf' | within _ _ hf' => rw [hf] at hf'; cases hf'
  | last hl =>
    subst hab
    cases H.split ha hb hgood with
    | fault _ hl' => rw [hl] at hl'; cases hl'
    | before _ _ hl' => rw [hl] at hl'; simp [hb] at hl'
    | at_cut _ hl' => rw [hl] at hl'; cases hl'; exact absurd rfl hb
    | within hl' hturn hl'' _ =>
      rw [hl] at hl''
      cases hl''
      exact .inr ⟨_, _, _, .last hl', .last hturn⟩
  | next hn hne hrest ih =>
    subst hab
    cases H.split ha hb hgood with
    | fault _ hn' => rw [hn] at hn'; cases hn'
    | before hn₁ hne' hn' =>
      rw [hn] at hn'
      cases hn'
      rcases ih hne' rfl (H.good (k := 0) hgood hn) with ⟨e, he⟩ | ⟨s', os, r', hok, hr'⟩
      · exact .inl ⟨e, .next hn₁ hne' he⟩
      · exact .inr ⟨s', _, r', .next hn₁ hne' hok, hr'⟩
    | at_cut hn₁ hn' =>
      rw [hn] at hn'
      cases hn'
      exact .inr ⟨_, _, _, .last hn₁, hrest⟩
    | within hn₁ hturn hn' _ =>
      rw [hn] at hn'
      cases hn'
      exact .inr ⟨_, _, _, .last hn₁, .next hturn hne hrest⟩

theorem Splits.good_of_returns (H : Splits turn norm Good) {d : List β} {k : ℕ}
    (h : Returns turn s d (.ok (s', os))) (hgood : Good s (d.length + k)) : Good s' k := by
  generalize hr : (.ok (s', os) : Except ε (σ × List ω)) = r at h
  induction h generalizing os with
  | fault _ => cases hr
  | last hl =>
    cases hr
    have := H.good hgood hl
    simpa using this
  | @next _ _ _ _ _ r₁ hn _ _ ih =>
    cases r₁ with
    | error e => cases hr
    | ok x =>
      cases hr
      exact ih (H.good hgood hn) rfl

theorem Splits.good_of_takes (H : Splits turn norm Good) {d : List β} {n k : ℕ}
    (h : Takes turn n s d s' os) (hn : d.length < n) (hgood : Good s (d.length + k)) :
    Good s' k := by
  induction h with
  | nil => rwa [List.length_nil, Nat.zero_add] at hgood
  | turn _ hturn _ ih =>
    have hfirst := H.good (k := k) hgood (hturn _ hn)
    rw [List.length_append] at hn
    exact ih (by omega) hfirst

/-! ### Calls -/

variable (turn) in
/-- The loop with a bound on its turns; `hangs` is the outcome of one that does not end. -/
def call (μ : σ → List β → ℕ) (hangs : ε) (s : σ) (d : List β) : Except ε (σ × List ω) :=
  (loop turn (μ s d + 1) s d).getD (.error hangs)

variable (turn) in
/-- One call for each of the chunks. -/
def calls (μ : σ → List β → ℕ) (hangs : ε) : σ → List (List β) → Except ε (σ × List ω)
  | s, [] => .ok (s, [])
  | s, c :: cs => andThen (call turn μ hangs s c) fun s' => calls μ hangs s' cs

variable {μ : σ → List β → ℕ} {hangs : ε} {d : List β}

theorem call_eq (hμ : Bounded turn μ) (h : Returns turn s d r) : call turn μ hangs s d = r := by
  rw [call, h.loop_eq hμ (Nat.lt_succ_self _)]
  rfl

theorem call_eq_hangs (h : ¬ ∃ r, Returns turn s d r) :
    call turn μ hangs s d = .error hangs := by
  rw [call]
  cases hloop : loop turn (μ s d + 1) s d with
  | none => rfl
  | some r => exact absurd ⟨r, returns_of_loop hloop⟩ h

/-- **A cut of the input does not change the outcome**, faults and endless loops included. -/
theorem Splits.observe_call_append (H : Splits turn norm Good) (hμ : Bounded turn μ)
    (ha : a ≠ []) (hb : b ≠ []) (hgood : Good s (a ++ b).length) :
    observe norm (call turn μ hangs s (a ++ b)) =
      observe norm (andThen (call turn μ hangs s a) fun s' => call turn μ hangs s' b) := by
  by_cases hret : ∃ r, Returns turn s (a ++ b) r
  · obtain ⟨r, hr⟩ := hret
    rcases H.returns_of_append ha hb hgood hr with ⟨e, he⟩ | ⟨s', os, r', hok, hr'⟩
    · rw [call_eq hμ (H.returns_error hb ha hgood he), call_eq hμ he]
      rfl
    · obtain ⟨r'', hr'', hobs⟩ := H.returns_append ha hb hgood hok hr'
      rw [call_eq hμ hr'', hobs, call_eq hμ hok, andThen, call_eq hμ hr']
  · rw [call_eq_hangs hret]
    by_cases hret₁ : ∃ r, Returns turn s a r
    · obtain ⟨r, hr⟩ := hret₁
      cases r with
      | error e => exact absurd ⟨_, H.returns_error hb ha hgood hr⟩ hret
      | ok x =>
        obtain ⟨s', os⟩ := x
        have hret₂ : ¬ ∃ r, Returns turn s' b r := fun ⟨r', hr'⟩ =>
          hret ⟨_, (H.returns_append ha hb hgood hr hr').choose_spec.1⟩
        rw [call_eq hμ hr, andThen, call_eq_hangs hret₂]
        rfl
    · rw [call_eq_hangs hret₁]
      rfl

theorem Splits.good_of_call (H : Splits turn norm Good) {k : ℕ}
    (h : call turn μ hangs s d = .ok (s', os)) (hgood : Good s (d.length + k)) : Good s' k := by
  rw [call] at h
  cases hloop : loop turn (μ s d + 1) s d with
  | none => rw [hloop] at h; cases h
  | some r =>
    rw [hloop, Option.getD_some] at h
    exact H.good_of_returns (returns_of_loop (hloop.trans (congrArg some h))) hgood

theorem Splits.turn_of_returns_error (H : Splits turn norm Good) (h : Returns turn s d (.error e))
    (hd : d ≠ []) (hgood : Good s d.length) :
    ∃ s' d', Good s' d'.length ∧ d' ≠ [] ∧ turn s' d' = .error e := by
  generalize hr : (.error e : Except ε (σ × List ω)) = r at h
  induction h with
  | fault hf =>
    cases hr
    exact ⟨_, _, hgood, hd, hf⟩
  | last _ => cases hr
  | @next _ _ _ _ _ r hn hne _ ih =>
    cases r with
    | error e' =>
      cases hr
      exact ih hne (H.good (k := 0) hgood hn) rfl
    | ok x => cases hr

/-- **A fault is that of a turn**, or an endless loop. -/
theorem Splits.turn_of_calls_error (H : Splits turn norm Good) {cs : List (List β)}
    (h : calls turn μ hangs s cs = .error e) (hne : ∀ c ∈ cs, c ≠ [])
    (hgood : Good s cs.flatten.length) :
    e = hangs ∨ ∃ s' d, Good s' d.length ∧ d ≠ [] ∧ turn s' d = .error e := by
  induction cs generalizing s with
  | nil => cases h
  | cons c cs ih =>
    rw [List.flatten_cons, List.length_append] at hgood
    rw [calls] at h
    cases hcall : call turn μ hangs s c with
    | error e' =>
      rw [hcall] at h
      cases h
      rw [call] at hcall
      cases hloop : loop turn (μ s c + 1) s c with
      | none =>
        rw [hloop] at hcall
        cases hcall
        exact .inl rfl
      | some r =>
        rw [hloop, Option.getD_some] at hcall
        have hgood' : Good s c.length := H.mono hgood
        exact .inr (H.turn_of_returns_error (returns_of_loop (hloop.trans (congrArg some hcall)))
          (hne c List.mem_cons_self) hgood')
    | ok x =>
      rw [hcall] at h
      obtain ⟨s', os⟩ := x
      cases hrest : calls turn μ hangs s' cs with
      | ok y =>
        simp only [andThen] at h
        rw [hrest] at h
        cases h
      | error e' =>
        simp only [andThen] at h
        rw [hrest] at h
        cases h
        exact ih hrest (fun c' hc' => hne c' (List.mem_cons_of_mem c hc'))
          (H.good_of_call hcall hgood)

/-- **Nor do any number of cuts.** -/
theorem Splits.observe_calls (H : Splits turn norm Good) (hμ : Bounded turn μ)
    {cs : List (List β)} (hcs : cs ≠ []) (hne : ∀ c ∈ cs, c ≠ [])
    (hgood : Good s cs.flatten.length) :
    observe norm (calls turn μ hangs s cs) = observe norm (call turn μ hangs s cs.flatten) := by
  induction cs generalizing s with
  | nil => exact absurd rfl hcs
  | cons c cs ih =>
    have hc : c ≠ [] := hne c List.mem_cons_self
    by_cases hcs' : cs = []
    · subst hcs'
      rw [List.flatten_cons, List.flatten_nil, List.append_nil]
      cases hcall : call turn μ hangs s c with
      | error e => simp [calls, hcall, andThen]
      | ok x => simp [calls, hcall, andThen, prepend, Except.map]
    · have hflat : cs.flatten ≠ [] := by
        obtain ⟨c', hc'⟩ := List.exists_mem_of_ne_nil cs hcs'
        exact fun h => hne c' (List.mem_cons_of_mem c hc') (List.flatten_eq_nil_iff.1 h c' hc')
      rw [List.flatten_cons] at hgood ⊢
      rw [H.observe_call_append hμ hc hflat hgood, calls]
      cases hcall : call turn μ hangs s c with
      | error e => rfl
      | ok x =>
        obtain ⟨s', os⟩ := x
        rw [List.length_append] at hgood
        have ih' := ih hcs' (fun c' hc' => hne c' (List.mem_cons_of_mem c hc'))
          (H.good_of_call hcall hgood)
        simp only [andThen]
        rw [observe_prepend, ih', ← observe_prepend]

/-- What the loop takes off a whole input, it takes off its parts. -/
theorem Splits.calls_of_takes (H : Splits turn norm Good) (hμ : Bounded turn μ)
    {cs : List (List β)} {n : ℕ} {s' : σ} {os : List ω} (h : Takes turn n s cs.flatten s' os)
    (hne : ∀ c ∈ cs, c ≠ []) (hn : cs.flatten.length < n) (hgood : Good s cs.flatten.length) :
    ∃ os', calls turn μ hangs s cs = .ok (s', os') ∧ os'.flatMap norm = os.flatMap norm := by
  by_cases hcs : cs = []
  · subst hcs
    obtain ⟨rfl, rfl⟩ := h.eq_of_nil
    exact ⟨[], rfl, rfl⟩
  · have hflat : cs.flatten ≠ [] := by
      obtain ⟨c, hc⟩ := List.exists_mem_of_ne_nil cs hcs
      exact fun h => hne c hc (List.flatten_eq_nil_iff.1 h c hc)
    have hobs : observe norm (calls turn μ hangs s cs) =
        observe norm (call turn μ hangs s cs.flatten) := H.observe_calls hμ hcs hne hgood
    rw [call_eq hμ (h.returns hflat hn)] at hobs
    cases hres : calls turn μ hangs s cs with
    | error e => rw [hres] at hobs; cases hobs
    | ok r =>
      rw [hres] at hobs
      simp only [observe, Except.map, Except.ok.injEq, Prod.mk.injEq] at hobs
      exact ⟨r.2, by rw [← hobs.1], hobs.2⟩

end Splits

end Chunked

end MqttServerTest
