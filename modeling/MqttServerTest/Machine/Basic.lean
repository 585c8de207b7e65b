import Mathlib.Data.List.Induction
import Mathlib.Data.List.Infix
import Mathlib.Tactic.TypeStar

/-!
# Machines, runs and history variables

Every stateful component is given a meaning as a *machine*: an initial state and a partial step
function on states and labels.  Whatever a step does not decide by itself (which thread moves,
what a clock reads, whether a database fails) is in its label, so that a list of labels
determines the run and a concrete run can be evaluated.

A *history variable* is computed along a run from the states and labels of its steps; it records
what has happened and can not influence the run.  Statements about whole runs relate the last
state to a history variable, and are proved by `Machine.history_invariant`.

## Main definitions

* `Machine S L`, `Machine.run`, `Machine.Reachable`.
* `Machine.history f h₀ ls` : the value after the run `ls` of the history variable that starts at
  `h₀` and is updated by `f`.
* `Machine.outputs out ls` : what the steps of the run `ls` have output, in order.
* `Machine.Always P ls` : `P` holds in every state along the run `ls`.
-/

namespace MqttServerTest

/-- A machine with states `S` and labels `L`. -/
structure Machine (S L : Type*) where
  /-- The initial state. -/
  init : S
  /-- `step s l` : the state after the step `l`, or `none` if `l` is not enabled in `s`. -/
  step : S → L → Option S

namespace Machine

variable {S L H O : Type*} (M : Machine S L)

/-- Perform the labels `ls` in order, from `s`. -/
def runFrom : S → List L → Option S
  | s, [] => some s
  | s, l :: ls => match M.step s l with
    | some s' => runFrom s' ls
    | none => none

/-- Perform the labels `ls` in order, from the initial state. -/
def run (ls : List L) : Option S := M.runFrom M.init ls

/-- `s` is the last state of some run. -/
def Reachable (s : S) : Prop := ∃ ls, M.run ls = some s

/-- The history variable `h`, updated by `f` at every step, after the labels `ls` from `s`. -/
def historyFrom (f : H → S → L → H) : S → H → List L → H
  | _, h, [] => h
  | s, h, l :: ls => match M.step s l with
    | some s' => historyFrom f s' (f h s l) ls
    | none => h

/-- The history variable that starts at `h₀` and is updated by `f`, after the run `ls`. -/
def history (f : H → S → L → H) (h₀ : H) (ls : List L) : H := M.historyFrom f M.init h₀ ls

/-- What the steps of the run `ls` have output, in order. -/
def outputs (out : S → L → List O) (ls : List L) : List O :=
  M.history (fun os s l => os ++ out s l) [] ls

/-- `P` holds in every state along the run `ls`. -/
def Always (P : S → Prop) (ls : List L) : Prop := ∀ ks s, ks <+: ls → M.run ks = some s → P s

variable {M}

theorem runFrom_cons {s s' : S} {l : L} {ls : List L} :
    M.runFrom s (l :: ls) = some s' ↔ ∃ t, M.step s l = some t ∧ M.runFrom t ls = some s' := by
  rw [runFrom]
  cases M.step s l with
  | none => simp
  | some t => simp

theorem runFrom_append (s : S) (ls ks : List L) :
    M.runFrom s (ls ++ ks) = (M.runFrom s ls).bind fun s' => M.runFrom s' ks := by
  induction ls generalizing s with
  | nil => rfl
  | cons l ls ih =>
    simp only [List.cons_append, runFrom]
    cases M.step s l with
    | none => rfl
    | some s' => exact ih s'

theorem runFrom_snoc {s s' : S} {ls : List L} {l : L} :
    M.runFrom s (ls ++ [l]) = some s' ↔ ∃ t, M.runFrom s ls = some t ∧ M.step t l = some s' := by
  rw [runFrom_append]
  cases M.runFrom s ls with
  | none => simp
  | some t =>
    simp only [Option.bind_some, runFrom, Option.some.injEq, exists_eq_left']
    cases M.step t l <;> simp

theorem run_snoc {ls : List L} {l : L} {s' : S} :
    M.run (ls ++ [l]) = some s' ↔ ∃ s, M.run ls = some s ∧ M.step s l = some s' := runFrom_snoc

/-- A run has run all its prefixes. -/
theorem run_of_prefix {ls ks : List L} {s : S} (h : M.run ls = some s) (hp : ks <+: ls) :
    ∃ s', M.run ks = some s' := by
  obtain ⟨rest, rfl⟩ := hp
  rw [run, runFrom_append] at h
  cases hk : M.runFrom M.init ks with
  | none => simp [hk] at h
  | some s' => exact ⟨s', hk⟩

theorem run_append {ls ks : List L} {s : S} (h : M.run ls = some s) :
    M.run (ls ++ ks) = M.runFrom s ks := by
  unfold run at h ⊢
  rw [runFrom_append, h]; rfl

/-- **Induction on runs** from a state `s₀`. -/
theorem runFrom_induction {P : List L → S → Prop} {s₀ : S} (h₀ : P [] s₀)
    (hstep : ∀ ls s l s', M.runFrom s₀ ls = some s → P ls s → M.step s l = some s' →
      P (ls ++ [l]) s') {ls : List L} {s : S} (h : M.runFrom s₀ ls = some s) : P ls s := by
  -- on the number of steps; the last one is taken off
  induction ls using List.reverseRecOn generalizing s with
  | nil => cases h; exact h₀
  | append_singleton ls l ih =>
    obtain ⟨s₁, h₁, hst⟩ := runFrom_snoc.1 h
    exact hstep ls s₁ l s h₁ (ih h₁) hst

/-- **Induction on runs**: what holds of the empty run and is preserved by every step that
extends a run holds of every run and its last state. -/
theorem run_induction {P : List L → S → Prop} (h₀ : P [] M.init)
    (hstep : ∀ ls s l s', M.run ls = some s → P ls s → M.step s l = some s' → P (ls ++ [l]) s')
    {ls : List L} {s : S} (h : M.run ls = some s) : P ls s := runFrom_induction h₀ hstep h

namespace Reachable

theorem of_run {ls : List L} {s : S} (h : M.run ls = some s) : M.Reachable s := ⟨ls, h⟩

/-- Reachable states satisfy every predicate that holds initially and is preserved by every
step from a reachable state. -/
theorem invariant {I : S → Prop} {s : S} (h : M.Reachable s) (h₀ : I M.init)
    (hstep : ∀ s l s', M.Reachable s → I s → M.step s l = some s' → I s') : I s := by
  obtain ⟨ls, hls⟩ := h
  exact run_induction (P := fun _ s => I s) h₀
    (fun ls s l s' hls hI hst => hstep s l s' ⟨ls, hls⟩ hI hst) hls

end Reachable

theorem always_nil {P : S → Prop} (h : P M.init) : M.Always P [] := by
  intro ks s hks hs
  rw [List.prefix_nil.1 hks] at hs
  cases hs; exact h

theorem always_snoc {P : S → Prop} {ls : List L} {l : L} {s : S}
    (h : M.run (ls ++ [l]) = some s) : M.Always P (ls ++ [l]) ↔ M.Always P ls ∧ P s := by
  constructor
  · intro ha
    exact ⟨fun ks t hks => ha ks t (hks.trans (List.prefix_append _ _)), ha _ s List.prefix_rfl h⟩
  · rintro ⟨ha, hs⟩ ks t hks ht
    rcases List.prefix_concat_iff.1 hks with rfl | hks
    · rw [h, Option.some.injEq] at ht
      exact ht ▸ hs
    · exact ha ks t hks ht

theorem Always.last {P : S → Prop} {ls : List L} {s : S} (h : M.Always P ls)
    (hs : M.run ls = some s) : P s := h ls s List.prefix_rfl hs

/-! ### History variables -/

theorem historyFrom_append (f : H → S → L → H) {s s₁ : S} {ls : List L} (ks : List L) (h : H)
    (hls : M.runFrom s ls = some s₁) :
    M.historyFrom f s h (ls ++ ks) = M.historyFrom f s₁ (M.historyFrom f s h ls) ks := by
  induction ls generalizing s h with
  | nil => cases hls; rfl
  | cons l ls ih =>
    simp only [runFrom] at hls
    simp only [List.cons_append, historyFrom]
    cases hst : M.step s l with
    | none => rw [hst] at hls; cases hls
    | some s' => rw [hst] at hls; exact ih _ hls

/-- A step updates the history variable. -/
theorem history_snoc (f : H → S → L → H) (h₀ : H) {ls : List L} {s s' : S} {l : L}
    (hls : M.run ls = some s) (hst : M.step s l = some s') :
    M.history f h₀ (ls ++ [l]) = f (M.history f h₀ ls) s l := by
  unfold history
  rw [historyFrom_append f [l] h₀ hls]
  simp only [historyFrom, hst]

theorem outputs_snoc (out : S → L → List O) {ls : List L} {s s' : S} {l : L}
    (hls : M.run ls = some s) (hst : M.step s l = some s') :
    M.outputs out (ls ++ [l]) = M.outputs out ls ++ out s l :=
  history_snoc _ _ hls hst

/-- **The invariant rule for history variables**: a relation between the state and a history
variable that holds initially and is preserved by every step holds after every run. -/
theorem history_invariant {f : H → S → L → H} {h₀ : H} {I : S → H → Prop} (hinit : I M.init h₀)
    (hstep : ∀ s h l s', M.Reachable s → I s h → M.step s l = some s' → I s' (f h s l))
    {ls : List L} {s : S} (hls : M.run ls = some s) : I s (M.history f h₀ ls) := by
  refine run_induction (P := fun ls s => I s (M.history f h₀ ls)) hinit ?_ hls
  intro ls s l s' hls hI hst
  rw [history_snoc f h₀ hls hst]
  exact hstep s _ l s' ⟨ls, hls⟩ hI hst

/-! ### Machines with outputs -/

section Emitted

variable {init : S} {exec : S → L → Option (S × List O)}

/-- The machine of a step function that returns the next state and what the step outputs. -/
def ofExec (init : S) (exec : S → L → Option (S × List O)) : Machine S L where
  init := init
  step s l := (exec s l).map Prod.fst

/-- What the steps of the run `ls` of `ofExec init exec` have output, in order. -/
def emitted (init : S) (exec : S → L → Option (S × List O)) (ls : List L) : List O :=
  (ofExec init exec).outputs (fun s l => ((exec s l).map Prod.snd).getD []) ls

theorem ofExec_step {s s' : S} {l : L} :
    (ofExec init exec).step s l = some s' ↔ ∃ os, exec s l = some (s', os) := by
  simp only [ofExec, Option.map_eq_some_iff, Prod.exists, exists_and_right, exists_eq_right]

/-- The invariant rule for the reachable states of a machine given by `exec`. -/
theorem Reachable.invariant_ofExec {I : S → Prop} {s : S} (h : (ofExec init exec).Reachable s)
    (h₀ : I init) (hstep : ∀ s l s' os, (ofExec init exec).Reachable s → I s →
      exec s l = some (s', os) → I s') : I s := by
  refine h.invariant h₀ fun s l s' hr hI hst => ?_
  obtain ⟨os, hos⟩ := ofExec_step.1 hst
  exact hstep s l s' os hr hI hos

theorem emitted_snoc {ls : List L} {s s' : S} {l : L} {os : List O}
    (hls : (ofExec init exec).run ls = some s) (hst : exec s l = some (s', os)) :
    emitted init exec (ls ++ [l]) = emitted init exec ls ++ os := by
  simp only [emitted]
  rw [outputs_snoc _ hls (ofExec_step.2 ⟨os, hst⟩), hst]
  rfl

/-- The invariant rule for the outputs of a machine given by `exec`, for the runs all of whose
labels satisfy `P`. -/
theorem emitted_invariant_of {P : L → Prop} {I : S → List O → Prop} (hinit : I init [])
    (hstep : ∀ s os l s' new, (ofExec init exec).Reachable s → P l → I s os →
      exec s l = some (s', new) → I s' (os ++ new))
    {ls : List L} {s : S} (hls : (ofExec init exec).run ls = some s) (hP : ∀ l ∈ ls, P l) :
    I s (emitted init exec ls) := by
  refine run_induction (M := ofExec init exec)
    (P := fun ls s => (∀ l ∈ ls, P l) → I s (emitted init exec ls)) (fun _ => hinit) ?_ hls hP
  intro ls s l s' hls ih hst hP
  obtain ⟨new, hnew⟩ := ofExec_step.1 hst
  rw [emitted_snoc hls hnew]
  exact hstep s _ l s' new ⟨ls, hls⟩ (hP l (by simp))
    (ih fun k hk => hP k (List.mem_append_left _ hk)) hnew

/-- The invariant rule for the outputs of a machine given by `exec`. -/
theorem emitted_invariant {I : S → List O → Prop} (hinit : I init [])
    (hstep : ∀ s os l s' new, (ofExec init exec).Reachable s → I s os →
      exec s l = some (s', new) → I s' (os ++ new))
    {ls : List L} {s : S} (hls : (ofExec init exec).run ls = some s) :
    I s (emitted init exec ls) :=
  emitted_invariant_of (P := fun _ => True) hinit
    (fun s os l s' new hr _ hI hst => hstep s os l s' new hr hI hst) hls fun _ _ => trivial

end Emitted

end Machine

end MqttServerTest
