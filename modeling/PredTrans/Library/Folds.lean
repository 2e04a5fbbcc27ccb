import Mathlib

/-! A loop that visits keys one after the other and rewrites the entry of the key it visits computes
a pointwise map, as long as no key is visited twice. -/

namespace PredTrans.Library
open List

variable {σ κ β ρ ε : Type*}

/-- `get` reads the table of a state and `keep` is whatever the loop leaves alone.
If a round succeeds on every entry that meets `P`, the loop succeeds, and it has
applied `g` to the entries it visited and to no other. -/
theorem foldlM_pointwise [DecidableEq κ] (get : σ → κ → β) (keep : σ → ρ) (P : κ → β → Prop)
    (g : κ → β → β) {f : σ → κ → Except ε σ}
    (hstep : ∀ s k, keep s = r → P k (get s k) → ∃ s', f s k = .ok s' ∧ keep s' = r ∧
      get s' k = g k (get s k) ∧ ∀ j ≠ k, get s' j = get s j)
    {ks : List κ} (hn : ks.Nodup) (hk : keep s = r) (hP : ∀ k ∈ ks, P k (get s k)) :
    ∃ s', ks.foldlM f s = .ok s' ∧ keep s' = r ∧
      ∀ j, get s' j = if j ∈ ks then g j (get s j) else get s j := by
  induction ks generalizing s with
  | nil => exact ⟨s,rfl,hk,fun j => by simp⟩
  | cons k ks ih =>
    obtain ⟨hkn,hn⟩ := nodup_cons.mp hn
    obtain ⟨s₁,hf,hk₁,hg,hother⟩ := hstep s k hk (hP k mem_cons_self)
    have hne : ∀ j ∈ ks, j ≠ k := fun j hj he => hkn (he ▸ hj)
    obtain ⟨s₂,hf₂,hk₂,hget⟩ := ih hn hk₁ (by
      intro j hj
      rw [hother j (hne j hj)]
      exact hP j (mem_cons_of_mem _ hj))
    refine ⟨s₂,?_,hk₂,?_⟩
    · rw [foldlM_cons,hf]
      exact hf₂
    intro j
    rw [hget j]
    by_cases hj : j = k
    · subst hj
      simp [hkn,hg]
    · simp [hj,hother j hj]

/-- What every successful round keeps, a successful loop keeps. -/
theorem foldlM_keep (P : σ → Prop) {f : σ → κ → Except ε σ}
    (hstep : ∀ s k s', P s → f s k = .ok s' → P s') {ks : List κ} (hs : P s)
    (h : ks.foldlM f s = .ok s') : P s' := by
  induction ks generalizing s with
  | nil =>
    cases h
    exact hs
  | cons k ks ih =>
    rw [foldlM_cons] at h
    cases hf : f s k with
    | error e =>
      rw [hf] at h
      cases h
    | ok s₁ =>
      rw [hf] at h
      exact ih (hstep s k s₁ hs hf) h

/-- What a round establishes about its key, and no round destroys, holds of every
visited key after a successful loop. -/
theorem foldlM_visited (P : κ → σ → Prop) {f : σ → κ → Except ε σ}
    (hset : ∀ s k s', f s k = .ok s' → P k s') (hkeep : ∀ s k s' j, P j s → f s k = .ok s' → P j s')
    {ks : List κ} (h : ks.foldlM f s = .ok s') : ∀ k ∈ ks, P k s' := by
  induction ks generalizing s with
  | nil => simp
  | cons k ks ih =>
    rw [foldlM_cons] at h
    cases hf : f s k with
    | error e =>
      rw [hf] at h
      cases h
    | ok s₁ =>
      rw [hf] at h
      intro j hj
      rcases mem_cons.mp hj with he | hj
      · subst he
        exact foldlM_keep (P j) (fun s k s' => hkeep s k s' j) (hset s j s₁ hf) h
      · exact ih h j hj

end PredTrans.Library
