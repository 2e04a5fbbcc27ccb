import Mathlib

namespace PredTrans.Library
open List

/-- The first element of every key class, in list order. -/
def firstsBy [DecidableEq κ] (key : α → κ) : List α → List α
  | [] => []
  | a :: l => a :: (firstsBy key l).filter (fun b => key b ≠ key a)

theorem mem_of_firstsBy [DecidableEq κ] {key : α → κ} (h : a ∈ firstsBy key l) : a ∈ l := by
  induction l with
  | nil => simp [firstsBy] at h
  | cons b l ih =>
    rcases mem_cons.mp h with rfl | h
    · exact mem_cons_self
    · exact mem_cons_of_mem _ (ih (mem_filter.mp h).1)

theorem firstsBy_congr [DecidableEq κ] [DecidableEq κ'] {key : α → κ} {key' : α → κ'}
    (h : ∀ a b, key a = key b ↔ key' a = key' b) (l : List α) :
        firstsBy key l = firstsBy key' l := by
  induction l with
  | nil => rfl
  | cons a l ih => simp only [firstsBy,ih,ne_eq,h]

/-- A test that only looks at the key keeps or drops whole classes, so it
commutes with taking the first of each class. -/
theorem filter_firstsBy [DecidableEq κ] {key : α → κ} (hp : ∀ a b, key a = key b → p a = p b)
    (l : List α) : (firstsBy key l).filter p = firstsBy key (l.filter p) := by
  induction l with
  | nil => rfl
  | cons a l ih =>
    cases ha : p a with
    | true =>
      simp only [firstsBy,filter_cons,ha,if_true,List.cons.injEq,true_and,← ih]
      rw [filter_filter,filter_filter]
      exact filter_congr (fun b _ => Bool.and_comm _ _)
    | false =>
      simp only [firstsBy,filter_cons,ha,Bool.false_eq_true,if_false]
      rw [filter_filter,← ih]
      apply filter_congr
      intro b _
      by_cases hk : key b = key a
      · simp [hp b a hk,ha]
      · simp [hk]

theorem filter_filter_of_imp {l : List α} (h : ∀ a ∈ l, q a = true → p a = true) :
    (l.filter p).filter q = l.filter q := by
  rw [filter_filter]
  refine filter_congr (fun a ha => ?_)
  cases hq : q a with
  | false => rfl
  | true => rw [h a ha hq]; rfl

theorem flatMap_filter_eq (l : List α) (p : α → Bool) (f : α → List β) :
    (l.filter p).flatMap f = l.flatMap fun a => if p a then f a else [] := by
  induction l with
  | nil => rfl
  | cons a l ih => cases hp : p a <;> simp [hp,ih]

/-- Elements that contribute nothing may be dropped before a `flatMap`. -/
theorem flatMap_filter_of_nil {l : List α} (h : ∀ a ∈ l, p a = false → f a = []) :
    (l.filter p).flatMap f = l.flatMap f := by
  rw [flatMap_filter_eq]
  refine flatMap_congr (fun a ha => ?_)
  cases hp : p a with
  | true => rfl
  | false => exact (h a ha hp).symm

/-- A test that only looks at where an element came from moves to the front. -/
theorem filter_flatMap_of_const {l : List α} (h : ∀ a ∈ l, ∀ b ∈ f a, p b = q a) :
    (l.flatMap f).filter p = (l.filter q).flatMap f := by
  rw [filter_flatMap,flatMap_filter_eq]
  refine flatMap_congr (fun a ha => ?_)
  cases hq : q a with
  | true => exact filter_eq_self.mpr (fun b hb => (h a ha b hb).trans hq)
  | false => exact filter_eq_nil_iff.mpr (fun b hb => by simp [h a ha b hb,hq])

section Sorting

variable {α : Type} {r : α → α → Prop} [DecidableRel r]

/-- In a sorted list the elements that must stay in front of `a` are a prefix. -/
theorem filter_orderedInsert [IsTrans α r] (a : α) {l : List α} (hl : l.Pairwise r) :
    (l.orderedInsert r a).filter p =
      if p a then (l.filter p).orderedInsert r a else l.filter p := by
  induction l with
  | nil => cases ha : p a <;> simp [ha]
  | cons b l ih =>
    obtain ⟨hb,hl⟩ := pairwise_cons.mp hl
    by_cases hab : r a b
    · cases hpa : p a with
      | false => simp [hab,hpa]
      | true =>
        cases hpb : p b with
        | true => simp [hab,hpa,hpb]
        | false =>
          -- `b` disappears, and `a` still precedes whatever is left
          cases hf : l.filter p with
          | nil => simp [hpa,hpb,hf,hab]
          | cons c cs =>
            have hc : c ∈ l := (mem_filter.mp (hf ▸ mem_cons_self)).1
            have hac : r a c := IsTrans.trans _ _ _ hab (hb c hc)
            simp [hab,hpa,hpb,hf,hac]
    · simp only [List.orderedInsert,hab,if_false,filter_cons]
      rw [ih hl]
      cases hpa : p a <;> cases hpb : p b <;> simp [hab]

/-- A stable sort commutes with dropping rows. -/
theorem filter_insertionSort [IsTrans α r] [Std.Total r] {p : α → Bool} (l : List α) :
    (l.insertionSort r).filter p = (l.filter p).insertionSort r := by
  induction l with
  | nil => rfl
  | cons a l ih =>
    rw [insertionSort_cons,filter_orderedInsert a (pairwise_insertionSort r l),ih]
    cases hpa : p a <;> simp [hpa]

end Sorting

theorem flatMap_eq_filter_map {l : List α} {g : α → β}
    (h : ∀ x ∈ l, f x = if P x then [g x] else []) : l.flatMap f = (l.filter P).map g := by
  rw [map_eq_flatMap,flatMap_filter_eq]
  exact flatMap_congr h

theorem range_blocks (hk : 0 < k) (n : Nat) :
    (List.range ((n + k - 1) / k)).flatMap (fun v => (List.range (min k (n - v * k))).map
      (v * k + ·)) =
      List.range n := by
  have hblocks : ∀ b, (List.range b).flatMap (fun v => (List.range (min k (n - v * k))).map
      (v * k + ·)) =
      List.range (min n (b * k)) := by
    intro b
    induction b with
    | zero => simp
    | succ b ih =>
      have hmul : (b + 1) * k = b * k + k := Nat.succ_mul b k
      have hmin : min n ((b + 1) * k) = min n (b * k) + min k (n - b * k) := by omega
      rw [range_succ,flatMap_append,ih,flatMap_singleton,hmin,range_add]
      -- the last block is empty, or starts at a full one
      refine congrArg _ (map_congr_left (fun i hi => ?_))
      have := mem_range.mp hi
      omega
  rw [hblocks]
  have hdiv := Nat.div_add_mod (n + k - 1) k
  have hmod := Nat.mod_lt (n + k - 1) hk
  rw [mul_comm] at hdiv
  congr 1
  omega

theorem filterMap_range_getElem? (h : l.length ≤ n) :
    (List.range n).filterMap (fun i => l[i]?) = l := by
  induction l generalizing n with
  | nil => simp
  | cons a l ih =>
    obtain ⟨n,rfl⟩ : ∃ k, n = k + 1 := ⟨n - 1,by simp at h; omega⟩
    rw [range_succ_eq_map,filterMap_cons]
    simp only [length_cons,Nat.add_le_add_iff_right] at h
    simpa using ih h

theorem flatMap_range_getElem? (l : List α) (f : α → List β) :
    (List.range l.length).flatMap (fun i => (l[i]?).elim [] f) = l.flatMap f := by
  induction l with
  | nil => rfl
  | cons a l ih =>
    rw [length_cons,range_succ_eq_map,flatMap_cons,flatMap_map]
    simpa using ih

end PredTrans.Library
