import MqttServerTest.Machine.Basic

/-!
# Simulations between machines with outputs

One machine is simulated by another if every step of it is matched by a sequence of steps of the
other, possibly empty, with the same outputs.  Then every run is matched by a run with the same
outputs (`emitted_simulation`).  The simulation may be restricted to runs that satisfy a condition
`G`, as long as every run that can be extended to one that satisfies `G` satisfies it too.
-/

namespace MqttServerTest

namespace Machine

variable {S T L K O : Type*} {init : S} {exec : S → L → Option (S × List O)} {init' : T}
  {exec' : T → K → Option (T × List O)}

/-- Perform the labels `ls` in order, from `s`, and collect the outputs. -/
def execFrom (exec : S → L → Option (S × List O)) : S → List L → Option (S × List O)
  | s, [] => some (s, [])
  | s, l :: ls => match exec s l with
    | some (s', os) => (execFrom exec s' ls).map fun r => (r.1, os ++ r.2)
    | none => none

theorem execFrom_cons {s s₁ s₂ : S} {l : L} {ls : List L} {os₁ os₂ : List O}
    (h₁ : exec s l = some (s₁, os₁)) (h₂ : execFrom exec s₁ ls = some (s₂, os₂)) :
    execFrom exec s (l :: ls) = some (s₂, os₁ ++ os₂) := by
  simp only [execFrom, h₁, h₂, Option.map_some]

theorem execFrom_single {s s' : S} {l : L} {os : List O} (h : exec s l = some (s', os)) :
    execFrom exec s [l] = some (s', os) := by
  have h' : execFrom exec s [l] = some (s', os ++ []) := execFrom_cons h rfl
  rwa [List.append_nil] at h'

/-- The first step is taken off. -/
theorem exists_of_execFrom_cons {s s' : S} {l : L} {ls : List L} {os : List O}
    (h : execFrom exec s (l :: ls) = some (s', os)) :
    ∃ s₁ os₁ os₂, exec s l = some (s₁, os₁) ∧ execFrom exec s₁ ls = some (s', os₂) ∧
      os = os₁ ++ os₂ := by
  simp only [execFrom] at h
  cases hl : exec s l with
  | none => rw [hl] at h; cases h
  | some r =>
    rw [hl] at h
    obtain ⟨⟨t, os₂⟩, ht, he⟩ := Option.map_eq_some_iff.1 h
    cases he
    exact ⟨r.1, r.2, os₂, rfl, ht, rfl⟩

theorem execFrom_append {s s₁ s₂ : S} {ls ks : List L} {os₁ os₂ : List O}
    (h₁ : execFrom exec s ls = some (s₁, os₁)) (h₂ : execFrom exec s₁ ks = some (s₂, os₂)) :
    execFrom exec s (ls ++ ks) = some (s₂, os₁ ++ os₂) := by
  induction ls generalizing s os₁ with
  | nil => cases h₁; exact h₂
  | cons l ls ih =>
    obtain ⟨t, os, os', hl, ht, rfl⟩ := exists_of_execFrom_cons h₁
    rw [List.cons_append, execFrom_cons hl (ih ht), List.append_assoc]

/-- **Induction on the steps that are left**: what holds of the last state, when nothing more is
output, and is preserved by putting a step before the others holds of every state. -/
theorem execFrom_induction {P : S → List O → Prop} {G : L → Prop} {s' : S} (hend : P s' [])
    (hstep : ∀ s l s₁ os₁ os, G l → exec s l = some (s₁, os₁) → P s₁ os → P s (os₁ ++ os))
    {s : S} {ls : List L} {os : List O} (h : execFrom exec s ls = some (s', os))
    (hG : ∀ l ∈ ls, G l) : P s os := by
  induction ls generalizing s os with
  | nil => cases h; exact hend
  | cons l ls ih =>
    obtain ⟨s₁, os₁, os', hl, ht, rfl⟩ := exists_of_execFrom_cons h
    have hrest := ih ht fun k hk => hG k (List.mem_cons_of_mem _ hk)
    exact hstep s l s₁ os₁ os' (hG l List.mem_cons_self) hl hrest

/-- A run is extended by a sequence of steps from its last state. -/
theorem run_execFrom {ls ks : List L} {s s' : S} {os : List O}
    (hls : (ofExec init exec).run ls = some s) (h : execFrom exec s ks = some (s', os)) :
    (ofExec init exec).run (ls ++ ks) = some s' ∧
      emitted init exec (ls ++ ks) = emitted init exec ls ++ os := by
  induction ks generalizing ls s os with
  | nil =>
    cases h
    rw [List.append_nil, List.append_nil]
    exact ⟨hls, rfl⟩
  | cons k ks ih =>
    obtain ⟨s₁, os₁, os₂, hk, ht, rfl⟩ := exists_of_execFrom_cons h
    have hls' : (ofExec init exec).run (ls ++ [k]) = some s₁ :=
      run_snoc.2 ⟨s, hls, ofExec_step.2 ⟨os₁, hk⟩⟩
    obtain ⟨hrun, hemit⟩ := ih hls' ht
    refine ⟨by rw [List.append_cons]; exact hrun, ?_⟩
    rw [List.append_cons, hemit, emitted_snoc hls hk, List.append_assoc]

/-- Where an output of a run comes from: the step that has output it, the run before this step and
the steps after it. -/
theorem emitted_split {ls : List L} {s : S} {pre post : List O} {o : O}
    (hls : (ofExec init exec).run ls = some s) (h : emitted init exec ls = pre ++ o :: post) :
    ∃ ks l ms s₁ s₂ os₁ os₂ os, ls = ks ++ l :: ms ∧ (ofExec init exec).run ks = some s₁ ∧
      exec s₁ l = some (s₂, os₁ ++ o :: os₂) ∧ execFrom exec s₂ ms = some (s, os) ∧
      pre = emitted init exec ks ++ os₁ ∧ post = os₂ ++ os := by
  refine run_induction (M := ofExec init exec) (P := fun ls s => ∀ post,
    emitted init exec ls = pre ++ o :: post → ∃ ks l ms s₁ s₂ os₁ os₂ os, ls = ks ++ l :: ms ∧
      (ofExec init exec).run ks = some s₁ ∧ exec s₁ l = some (s₂, os₁ ++ o :: os₂) ∧
      execFrom exec s₂ ms = some (s, os) ∧ pre = emitted init exec ks ++ os₁ ∧
      post = os₂ ++ os) ?_ ?_ hls post h
  · intro post h
    have hnil : emitted init exec [] = [] := rfl
    rw [hnil] at h
    simp at h
  · intro ls s l s' hls ih hst post h
    obtain ⟨new, hnew⟩ := ofExec_step.1 hst
    rw [emitted_snoc hls hnew] at h
    -- the output is one of the last step or an earlier one
    rcases List.append_eq_append_iff.1 h with ⟨os₁, hpre, rfl⟩ | ⟨rest, he, hrest⟩
    · exact ⟨ls, l, [], s, s', os₁, post, [], rfl, hls, hnew, rfl, hpre, by simp⟩
    · cases rest with
      | nil =>
        rw [List.nil_append] at hrest
        rw [List.append_nil] at he
        exact ⟨ls, l, [], s, s', [], post, [], rfl, hls, by rw [hnew, hrest]; rfl, rfl,
          by rw [he, List.append_nil], by simp⟩
      | cons o' rest =>
        obtain ⟨rfl, rfl⟩ := List.cons.inj hrest
        obtain ⟨ks, k, ms, s₁, s₂, os₁, os₂, os, rfl, hks, hk, hms, hpre, rfl⟩ := ih rest he
        refine ⟨ks, k, ms ++ [l], s₁, s₂, os₁, os₂, os ++ new, by simp, hks, hk,
          execFrom_append hms (execFrom_single hnew), hpre, by simp⟩

/-- **The rule of simulation.** -/
theorem emitted_simulation {R : S → T → Prop} {G : List L → S → Prop} (hinit : R init init')
    (hG : ∀ ls s l s' os, (ofExec init exec).run ls = some s → exec s l = some (s', os) →
      G (ls ++ [l]) s' → G ls s)
    (hstep : ∀ ls s l s' os t, (ofExec init exec).run ls = some s → exec s l = some (s', os) →
      G (ls ++ [l]) s' → R s t → ∃ ks t', execFrom exec' t ks = some (t', os) ∧ R s' t')
    {ls : List L} {s : S} (hls : (ofExec init exec).run ls = some s) (hg : G ls s) :
    ∃ ks t, (ofExec init' exec').run ks = some t ∧
      emitted init' exec' ks = emitted init exec ls ∧ R s t := by
  refine run_induction (M := ofExec init exec) (P := fun ls s => G ls s → ∃ ks t,
    (ofExec init' exec').run ks = some t ∧ emitted init' exec' ks = emitted init exec ls ∧ R s t)
    (fun _ => ⟨[], init', rfl, rfl, hinit⟩) ?_ hls hg
  intro ls s l s' hls ih hst hg
  obtain ⟨os, hos⟩ := ofExec_step.1 hst
  obtain ⟨ks, t, hks, hemit, hR⟩ := ih (hG ls s l s' os hls hos hg)
  obtain ⟨ks', t', ht', hR'⟩ := hstep ls s l s' os t hls hos hg hR
  obtain ⟨hrun, hemit'⟩ := run_execFrom hks ht'
  exact ⟨ks ++ ks', t', hrun, by rw [hemit', hemit, emitted_snoc hls hos], hR'⟩

end Machine

end MqttServerTest
