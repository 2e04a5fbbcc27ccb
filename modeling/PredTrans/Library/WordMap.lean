import Mathlib

/-!
Maps from words over an alphabet to lists of values, and how a tree of words is read as such a
map: a leading word stands above a map, a branching routes on the first letter. A word without
values is one that the map does not hold.
-/

namespace PredTrans.Library
open List Function

/-- The values of every word. -/
abbrev WordMap (α β : Type) := List α → List β

namespace WordMap

variable {α β : Type} [DecidableEq α]

def empty : WordMap α β := fun _ => []

/-- The map that holds one word. -/
def single (w : List α) (values : List β) : WordMap α β := update empty w values

/-- All words of a map with a leading word in front. -/
def under (p : List α) (m : WordMap α β) : WordMap α β :=
  fun w => if p <+: w then m (w.drop p.length) else []

/-- One map for every first letter; the empty word has no values. -/
def route (f : α → WordMap α β) : WordMap α β
  | [] => []
  | a :: w => f a w

/-- No word of the map is a proper beginning of `w`, and `w` is none of a word of the map. -/
def Apart (m : WordMap α β) (w : List α) : Prop :=
  ∀ v, m v ≠ [] → (v <+: w ∨ w <+: v) → v = w

@[simp] theorem under_nil (m : WordMap α β) : under [] m = m := by
  funext w
  simp [under]

@[simp] theorem under_append (p w : List α) (m : WordMap α β) : under p m (p ++ w) = m w := by
  simp [under]

theorem under_of_not (m : WordMap α β) (h : ¬ p <+: w) : under p m w = [] := by
  simp [under,h]

theorem under_under (p q : List α) (m : WordMap α β) : under p (under q m) = under (p ++ q) m := by
  funext w
  by_cases hp : p <+: w
  · obtain ⟨v,rfl⟩ := hp
    simp [under,prefix_append_right_inj]
  · have hpq : ¬ p ++ q <+: w := fun h => hp ((prefix_append p q).trans h)
    simp [under,hp,hpq]

/-- A word that stands under a leading word continues it. -/
theorem exists_of_under {m : WordMap α β} (h : under p m w ≠ []) : ∃ v, w = p ++ v ∧ m v ≠ [] := by
  by_cases hp : p <+: w
  · obtain ⟨v,rfl⟩ := hp
    exact ⟨v,rfl,by simpa using h⟩
  · exact absurd (under_of_not m hp) h

theorem under_update (p w : List α) (m : WordMap α β) (x : List β) :
    under p (update m w x) = update (under p m) (p ++ w) x := by
  funext v
  by_cases hp : p <+: v
  · obtain ⟨u,rfl⟩ := hp
    simp [update_apply]
  · have hne : v ≠ p ++ w := fun heq => hp (heq ▸ prefix_append p w)
    simp [update_of_ne hne,under_of_not _ hp]

@[simp] theorem under_empty (p : List α) : under p (empty : WordMap α β) = empty := by
  funext w
  simp [under,empty]

theorem under_single (p w : List α) (x : List β) : under p (single w x) = single (p ++ w) x := by
  rw [single,under_update,under_empty]
  rfl

@[simp] theorem update_single (w : List α) (x y : List β) :
    update (single w x) w y = single w y := by
  simp [single]

@[simp] theorem single_nil (w : List α) : single w ([] : List β) = empty := by
  funext v
  simp [single,empty,update_apply]

theorem under_cons (a : α) (m : WordMap α β) :
    under [a] m = route (update (fun _ => empty) a m) := by
  funext w
  cases w with
  | nil => simp [under,route]
  | cons b w =>
    by_cases hb : b = a
    · simp [hb,route,show under [a] m (a :: w) = m w from under_append [a] w m]
    · have hp : ¬ [a] <+: b :: w := by simp [Ne.symm hb]
      simp [under_of_not m hp,route,hb,empty]

theorem route_update (f : α → WordMap α β) (a : α) (w : List α) (x : List β) :
    route (update f a (update (f a) w x)) =
      update (route f) (a :: w) x := by
  funext v
  cases v with
  | nil => simp [route]
  | cons b v =>
    by_cases hb : b = a
    · subst hb
      simp [route,update_apply]
    · simp [route,hb]

variable {m : WordMap α β}

omit [DecidableEq α] in
theorem Apart.route (h : Apart (route f) (a :: w)) : Apart (f a) w := by
  intro v hv hp
  have := h (a :: v) hv (by simpa using hp)
  exact (List.cons.inj this).2

theorem Apart.under (h : Apart (under p m) (p ++ w)) : Apart m w := by
  intro v hv hp
  have := h (p ++ v) (by simpa using hv) (by simpa [prefix_append_right_inj] using hp)
  exact append_cancel_left this

omit [DecidableEq α] in
theorem Apart.ne_nil (h : Apart (WordMap.route f) w) (hv : f a v ≠ []) : w ≠ [] := by
  rintro rfl
  exact cons_ne_nil a v (h (a :: v) hv (.inr nil_prefix))

theorem Apart.eq_of_prefix (h : Apart (WordMap.under p m) w) (hv : m v ≠ []) (hp : w <+: p) :
    w = p := by
  have heq := h (p ++ v) (by simpa using hv) (.inr (hp.trans (prefix_append p v)))
  exact hp.eq_of_length_le (by rw [← heq]; simp)

end WordMap

end PredTrans.Library
