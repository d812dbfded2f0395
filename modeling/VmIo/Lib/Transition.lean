import Mathlib

/-!
Runs of a partial step function.

A system is a function `step : σ → α → Option σ`. Everything a run may choose
(which party moves, whether an operation fails, how long it waits) is part of
the action, so the function is executable and a schedule is a list of actions.
A guard `ok : σ → α → Prop` cuts the runs down to those whose every step meets
a condition on the state before it.
-/

namespace VmIo.Lib

section Reach

variable {σ α : Type*} (step : σ → α → Option σ) (ok : σ → α → Prop)

/-- The states that runs from `s₀` reach, every step meeting the guard. -/
inductive Reach (s₀ : σ) : σ → Prop
  | refl : Reach s₀ s₀
  | tail {s s' : σ} (a : α) :
      Reach s₀ s → ok s a → step s a = some s' → Reach s₀ s'

variable {step ok}

/-- A property of the initial state that every guarded step preserves holds in
every reachable state. -/
theorem Reach.invariant {I : σ → Prop} {s₀ s : σ} (h₀ : I s₀)
    (hstep : ∀ s a s', I s → ok s a → step s a = some s' → I s')
    (hreach : Reach step ok s₀ s) : I s := by
  induction hreach with
  | refl => exact h₀
  | tail a _ hok hs ih => exact hstep _ a _ ih hok hs

/-- As `Reach.invariant`, with an invariant that is already known at hand. -/
theorem Reach.invariant_of {J I : σ → Prop} {s₀ s : σ}
    (hJ : ∀ s, Reach step ok s₀ s → J s) (h₀ : I s₀)
    (hstep : ∀ s a s', J s → J s' → I s → ok s a → step s a = some s' → I s')
    (hreach : Reach step ok s₀ s) : I s := by
  induction hreach with
  | refl => exact h₀
  | tail a hr hok hs ih => exact hstep _ a _ (hJ _ hr) (hJ _ (.tail a hr hok hs)) ih hok hs

theorem Reach.mono {ok' : σ → α → Prop} {s₀ s : σ}
    (h : ∀ s a, ok s a → ok' s a) (hreach : Reach step ok s₀ s) :
    Reach step ok' s₀ s := by
  induction hreach with
  | refl => exact .refl
  | tail a _ hok hs ih => exact .tail a ih (h _ a hok) hs

theorem Reach.trans {s₀ s₁ s₂ : σ} (h₁ : Reach step ok s₀ s₁)
    (h₂ : Reach step ok s₁ s₂) : Reach step ok s₀ s₂ := by
  induction h₂ with
  | refl => exact h₁
  | tail a _ hok hs ih => exact .tail a ih hok hs

/-- Run a schedule, checking the guard before every step. -/
def runOk (step : σ → α → Option σ) (ok : σ → α → Prop)
    [∀ s a, Decidable (ok s a)] : σ → List α → Option σ
  | s, [] => some s
  | s, a :: as => if ok s a then (step s a).bind (fun s' => runOk step ok s' as) else none

theorem Reach.of_runOk [∀ s a, Decidable (ok s a)] {s s' : σ} {as : List α}
    (h : runOk step ok s as = some s') : Reach step ok s s' := by
  induction as generalizing s with
  | nil =>
      simp only [runOk, Option.some.injEq] at h
      exact h ▸ .refl
  | cons a as ih =>
      simp only [runOk] at h
      split at h
      · rename_i hok
        obtain ⟨mid, hmid, hrest⟩ := Option.bind_eq_some_iff.mp h
        exact Reach.trans (.tail a .refl hok hmid) (ih hrest)
      · contradiction

theorem Reach.exists_of_runOk (step : σ → α → Option σ) (ok : σ → α → Prop)
    [∀ s a, Decidable (ok s a)] (s : σ) (as : List α) (p : σ → Prop) [DecidablePred p]
    (h : (runOk step ok s as).any (fun s' => decide (p s')) = true) :
    ∃ s', Reach step ok s s' ∧ p s' := by
  obtain ⟨s', hs', hp⟩ := (Option.any_eq_true _ _).mp h
  exact ⟨s', .of_runOk hs', of_decide_eq_true hp⟩

end Reach

section Observe

/-! A run can be watched: a history `γ` is updated beside the state by a
function of the step just taken. The history never influences the run. -/

variable {σ α γ : Type*} (step : σ → α → Option σ) (note : σ → α → σ → γ → γ)

def observe : σ × γ → α → Option (σ × γ)
  | (s, g), a => (step s a).map fun s' => (s', note s a s' g)

variable {step note}

theorem observe_eq_some_iff {p p' : σ × γ} {a : α} :
    observe step note p a = some p' ↔
      step p.1 a = some p'.1 ∧ p'.2 = note p.1 a p'.1 p.2 := by
  obtain ⟨s, g⟩ := p
  obtain ⟨s', g'⟩ := p'
  simp only [observe, Option.map_eq_some_iff, Prod.mk.injEq]
  constructor
  · rintro ⟨t, ht, rfl, rfl⟩
    exact ⟨ht, rfl⟩
  · rintro ⟨ht, rfl⟩
    exact ⟨s', ht, rfl, rfl⟩

/-- Forgetting the history of a watched run leaves a run. -/
theorem Reach.of_observe {ok : σ → α → Prop} {p₀ p : σ × γ}
    (h : Reach (observe step note) (fun p a => ok p.1 a) p₀ p) :
    Reach step ok p₀.1 p.1 := by
  induction h with
  | refl => exact .refl
  | tail a _ hok hs ih => exact .tail a ih hok (observe_eq_some_iff.mp hs).1

theorem Reach.exists_observe {ok : σ → α → Prop} {s₀ s : σ} (note : σ → α → σ → γ → γ) (g₀ : γ)
    (h : Reach step ok s₀ s) :
    ∃ g, Reach (observe step note) (fun p a => ok p.1 a) (s₀, g₀) (s, g) := by
  induction h with
  | refl => exact ⟨g₀, .refl⟩
  | tail a _ hok hs ih =>
      obtain ⟨g, hg⟩ := ih
      exact ⟨note _ a _ g, .tail a hg hok (observe_eq_some_iff.mpr ⟨hs, rfl⟩)⟩

end Observe

section Logged

/-! A step may report events. They are kept in a log, the latest first. The log never
influences the run. -/

variable {σ α ε : Type*} (step : σ → α → Option (σ × List ε))

def logged : σ × List ε → α → Option (σ × List ε)
  | (s, log), a => (step s a).map fun r => (r.1, r.2 ++ log)

/-- Each event of a log meets a condition on the log before it. -/
def Legal (p : List ε → ε → Prop) : List ε → Prop
  | [] => True
  | e :: log => p log e ∧ Legal p log

variable {step} {p : List ε → ε → Prop}

theorem logged_eq_some_iff {q q' : σ × List ε} {a : α} :
    logged step q a = some q' ↔ ∃ events, step q.1 a = some (q'.1, events) ∧ q'.2 = events ++ q.2 := by
  obtain ⟨s, log⟩ := q
  obtain ⟨s', log'⟩ := q'
  simp only [logged, Option.map_eq_some_iff, Prod.mk.injEq, Prod.exists]
  constructor
  · rintro ⟨t, events, hstep, rfl, rfl⟩
    exact ⟨events, hstep, rfl⟩
  · rintro ⟨events, hstep, rfl⟩
    exact ⟨s', events, hstep, rfl, rfl⟩

theorem Legal.of_append {later log : List ε} (h : Legal p (later ++ log)) : Legal p log := by
  induction later with
  | nil => exact h
  | cons e later ih => exact ih h.2

theorem Legal.event {later earlier : List ε} {e : ε} (h : Legal p (later ++ e :: earlier)) :
    p earlier e :=
  (Legal.of_append h).1

end Logged

section Parties

/-! The parties of a system are kept in a list, and an action names one by its index. -/

theorem getElem?_concat_cases {α : Type*} {l : List α} {a b : α} {t : ℕ}
    (h : (l ++ [a])[t]? = some b) : l[t]? = some b ∨ l.length ≤ t ∧ b = a := by
  rcases lt_or_ge t l.length with hlt | hge
  · exact .inl (List.getElem?_append_left hlt ▸ h)
  · rw [List.getElem?_append_right hge] at h
    exact .inr ⟨hge, List.mem_singleton.mp (List.mem_of_getElem? h)⟩

theorem getElem?_set_cases {α : Type*} {l : List α} {a b : α} {t u : ℕ}
    (h : (l.set t a)[u]? = some b) : u = t ∧ b = a ∨ u ≠ t ∧ l[u]? = some b := by
  rcases eq_or_ne u t with rfl | hne
  · rw [List.getElem?_set_self (by simpa using (List.getElem?_eq_some_iff.mp h).1)] at h
    exact .inl ⟨rfl, (Option.some.inj h).symm⟩
  · exact .inr ⟨hne, List.getElem?_set_ne hne.symm ▸ h⟩

end Parties

end VmIo.Lib
