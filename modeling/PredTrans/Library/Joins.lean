import Mathlib

/-! The pairs of two lists that match, and the members of one list with and without a match in
another. All of them add up over parts between which nothing matches. -/

namespace PredTrans.Library
open List

variable {α β : Type} (m : α → β → Bool)

/-- The matching pairs. -/
def pairs (l : List α) (r : List β) : List (α × β) :=
  l.flatMap fun a => (r.filter (m a)).map fun b => (a, b)

/-- The left members of a semi join. -/
def matched (l : List α) (r : List β) : List α :=
  l.filter fun a => r.any (m a)

/-- The left members of an anti join. -/
def unmatched (l : List α) (r : List β) : List α :=
  l.filter fun a => !r.any (m a)

/-- No member of the first list matches one of the second. -/
def Apart (l : List α) (r : List β) : Prop :=
  ∀ a ∈ l, ∀ b ∈ r, m a b = false

variable {m} {l l₁ l₂ : List α} {r r₁ r₂ : List β}

theorem Apart.flip (h : Apart m l r) : Apart (fun b a => m a b) r l :=
  fun b hb a ha => h a ha b hb

theorem Apart.filter_eq_nil (h : Apart m l r) (ha : a ∈ l) : r.filter (m a) = [] := by
  simpa [filter_eq_nil_iff] using h a ha

theorem Apart.any_eq_false (h : Apart m l r) (ha : a ∈ l) : r.any (m a) = false := by
  simpa using h a ha

theorem perm_pairs (hl : l₁.Perm l₂) (hr : r₁.Perm r₂) : (pairs m l₁ r₁).Perm (pairs m l₂ r₂) :=
  hl.flatMap fun _ _ => (hr.filter _).map _

theorem any_congr_perm (hr : r₁.Perm r₂) (p : β → Bool) : r₁.any p = r₂.any p := by
  rw [Bool.eq_iff_iff]
  simp [hr.mem_iff]

theorem perm_matched (hl : l₁.Perm l₂) (hr : r₁.Perm r₂) :
    (matched m l₁ r₁).Perm (matched m l₂ r₂) := by
  simpa [matched,any_congr_perm hr] using hl.filter _

theorem perm_unmatched (hl : l₁.Perm l₂) (hr : r₁.Perm r₂) :
    (unmatched m l₁ r₁).Perm (unmatched m l₂ r₂) := by
  simpa [unmatched,any_congr_perm hr] using hl.filter _

theorem pairs_append_right (l : List α) (r₁ r₂ : List β) :
    (pairs m l (r₁ ++ r₂)).Perm (pairs m l r₁ ++ pairs m l r₂) := by
  simpa [pairs] using (flatMap_append_perm l
    (fun a => (r₁.filter (m a)).map fun b => (a, b))
    (fun a => (r₂.filter (m a)).map fun b => (a, b))).symm

theorem Apart.pairs_eq_nil (h : Apart m l r) : pairs m l r = [] := by
  simp only [pairs,flatMap_eq_nil_iff,map_eq_nil_iff]
  exact fun a ha => h.filter_eq_nil ha

/-- A join of two parts that are apart is the two joins. -/
theorem pairs_append (h₁₂ : Apart m l₁ r₂) (h₂₁ : Apart m l₂ r₁) :
    (pairs m (l₁ ++ l₂) (r₁ ++ r₂)).Perm (pairs m l₁ r₁ ++ pairs m l₂ r₂) := by
  have hsplit : pairs m (l₁ ++ l₂) (r₁ ++ r₂)
      = pairs m l₁ (r₁ ++ r₂) ++ pairs m l₂ (r₁ ++ r₂) := by simp [pairs]
  have hfirst := pairs_append_right (m := m) l₁ r₁ r₂
  have hsecond := pairs_append_right (m := m) l₂ r₁ r₂
  rw [h₁₂.pairs_eq_nil,append_nil] at hfirst
  rw [h₂₁.pairs_eq_nil,nil_append] at hsecond
  rw [hsplit]
  exact hfirst.append hsecond

theorem any_append_left (h : Apart m l r₂) (ha : a ∈ l) : (r₁ ++ r₂).any (m a) = r₁.any (m a) := by
  simp [any_append,h.any_eq_false ha]

theorem any_append_right (h : Apart m l r₁) (ha : a ∈ l) : (r₁ ++ r₂).any (m a) = r₂.any (m a) := by
  simp [any_append,h.any_eq_false ha]

theorem matched_append (h₁₂ : Apart m l₁ r₂) (h₂₁ : Apart m l₂ r₁) :
    matched m (l₁ ++ l₂) (r₁ ++ r₂) = matched m l₁ r₁ ++ matched m l₂ r₂ := by
  simp only [matched,filter_append]
  congr 1
  · exact filter_congr fun a ha => any_append_left h₁₂ ha
  · exact filter_congr fun a ha => any_append_right h₂₁ ha

theorem unmatched_append (h₁₂ : Apart m l₁ r₂) (h₂₁ : Apart m l₂ r₁) :
    unmatched m (l₁ ++ l₂) (r₁ ++ r₂) = unmatched m l₁ r₁ ++ unmatched m l₂ r₂ := by
  simp only [unmatched,filter_append]
  congr 1
  · exact filter_congr fun a ha => by rw [any_append_left h₁₂ ha]
  · exact filter_congr fun a ha => by rw [any_append_right h₂₁ ha]

/-- Members that cannot match may be filtered out first. -/
theorem any_filter_of_match (h : ∀ b, m a b → keep b) (r : List β) :
    (r.filter keep).any (m a) = r.any (m a) := by
  rw [any_filter]
  congr 1
  funext b
  cases hm : m a b with
  | false => exact Bool.and_false _
  | true => rw [h b hm,Bool.and_true]

theorem pairs_filter (h : ∀ a b, m a b → keep b) (l : List α) (r : List β) :
    pairs m l (r.filter keep) = pairs m l r := by
  simp only [pairs,filter_filter]
  congr 1
  funext a
  congr 1
  apply filter_congr
  intro b _
  cases hm : m a b with
  | true => simp [h a b hm]
  | false => rfl

theorem matched_filter (h : ∀ a b, m a b → keep b) (l : List α) (r : List β) :
    matched m l (r.filter keep) = matched m l r := by
  simp only [matched,any_filter_of_match (h _)]

theorem unmatched_filter (h : ∀ a b, m a b → keep b) (l : List α) (r : List β) :
    unmatched m l (r.filter keep) = unmatched m l r := by
  simp only [unmatched,any_filter_of_match (h _)]

end PredTrans.Library
