import Mathlib

/-!
A fair counting semaphore.

Who asks while no permit is free waits in a queue, and a permit that comes back goes to who has
waited longest. `Semaphore.Conserves` is what all operations keep: the permits that are free and
those held are as many as at the start, and none is free while somebody waits.
-/

namespace VmIo.Lib

variable {ι : Type*}

structure Semaphore (ι : Type*) where
  available : ℕ
  /-- who waits, the longest first -/
  queue : List ι
  deriving DecidableEq

namespace Semaphore

def new (n : ℕ) : Semaphore ι := ⟨n, []⟩

/-- Take a permit if one is free, or else wait. -/
def acquire (s : Semaphore ι) (i : ι) : Semaphore ι × Bool :=
  if 0 < s.available then ({ s with available := s.available - 1 }, true)
  else ({ s with queue := s.queue ++ [i] }, false)

def release (s : Semaphore ι) : Semaphore ι × Option ι :=
  match s.queue with
  | [] => ({ s with available := s.available + 1 }, none)
  | i :: queue => ({ s with queue := queue }, some i)

def cancel [DecidableEq ι] (s : Semaphore ι) (i : ι) : Semaphore ι :=
  { s with queue := s.queue.erase i }

structure Conserves (n : ℕ) (s : Semaphore ι) (held : Finset ι) : Prop where
  conserved : s.available + held.card = n
  full : s.queue ≠ [] → s.available = 0

variable {n : ℕ} {s s' : Semaphore ι} {held : Finset ι} {i j : ι}

theorem conserves_new (n : ℕ) : Conserves n (new n : Semaphore ι) ∅ := ⟨rfl, fun h => absurd rfl h⟩

/-- A permit that is handed on goes to who has waited longest. -/
theorem queue_of_release (hs : s.release = (s', some i)) : s.queue = i :: s'.queue := by
  unfold release at hs
  split at hs
  · cases hs
  · rename_i hq
    cases hs
    exact hq

namespace Conserves

theorem card_eq (h : Conserves n s held) (hq : s.queue ≠ []) : held.card = n := by
  have := h.conserved
  have := h.full hq
  omega

theorem of_wait (h : Conserves n s held) (hs : s.acquire i = (s', false)) :
    Conserves n s' held ∧ s'.queue = s.queue ++ [i] := by
  unfold acquire at hs
  split at hs
  · cases hs
  · cases hs
    exact ⟨⟨h.conserved, fun _ => by simp only; omega⟩, rfl⟩

variable [DecidableEq ι]

theorem of_acquire (h : Conserves n s held) (hi : i ∉ held) (hs : s.acquire i = (s', true)) :
    Conserves n s' (insert i held) ∧ s.queue = [] ∧ s'.queue = [] ∧ held.card < n := by
  unfold acquire at hs
  split at hs
  · rename_i hpos
    cases hs
    have hempty : s.queue = [] := by
      by_contra hq
      exact hpos.ne' (h.full hq)
    have hconserved := h.conserved
    refine ⟨⟨?_, fun hq => absurd hempty hq⟩, hempty, hempty, by omega⟩
    rw [Finset.card_insert_of_notMem hi]
    simp only
    omega
  · cases hs

theorem of_release (h : Conserves n s held) (hj : j ∈ held) (hs : s.release = (s', none)) :
    Conserves n s' (held.erase j) ∧ s.queue = [] ∧ s'.queue = [] := by
  unfold release at hs
  split at hs
  · rename_i hq
    cases hs
    have hcard := Finset.card_erase_add_one hj
    have hconserved := h.conserved
    refine ⟨⟨?_, fun hne => absurd hq hne⟩, hq, hq⟩
    simp only
    omega
  · cases hs

theorem of_hand (h : Conserves n s held) (hj : j ∈ held) (hi : i ∉ held)
    (hs : s.release = (s', some i)) :
    Conserves n s' (insert i (held.erase j)) ∧ (held.erase j).card < n := by
  unfold release at hs
  split at hs
  · cases hs
  · rename_i hq
    cases hs
    have hcard := Finset.card_erase_add_one hj
    have hconserved := h.conserved
    refine ⟨⟨?_, fun _ => h.full (by simp [hq])⟩, by omega⟩
    rw [Finset.card_insert_of_notMem fun hmem => hi (Finset.mem_of_mem_erase hmem)]
    simp only
    omega

theorem cancel (h : Conserves n s held) (i : ι) : Conserves n (s.cancel i) held where
  conserved := h.conserved
  full hq := h.full fun hempty => hq (by simp [Semaphore.cancel, hempty])

end Conserves

end Semaphore

end VmIo.Lib
