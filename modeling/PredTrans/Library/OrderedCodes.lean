import Mathlib

/-!
# Codes that keep an order and in which no word continues another
-/

namespace PredTrans.Library

/-- Two words that differ, first at a letter that is smaller in the left one. -/
inductive Below {α : Type} [LT α] : List α → List α → Prop
  | head (h : a < b) : Below (a :: u) (b :: v)
  | cons (a : α) (h : Below u v) : Below (a :: u) (a :: v)

namespace Below

variable {α : Type} [LinearOrder α] {u v s t : List α}

theorem append (h : Below u v) (s t : List α) : Below (u ++ s) (v ++ t) := by
  induction h with
  | head hlt => exact head hlt
  | cons a _ ih => exact cons a ih

theorem append_left (h : Below s t) (u : List α) : Below (u ++ s) (u ++ t) := by
  induction u with
  | nil => exact h
  | cons a u ih => exact cons a ih

theorem lt (h : Below u v) : u < v := by
  induction h with
  | head hlt => exact List.Lex.rel hlt
  | cons a _ ih => exact List.Lex.cons ih

theorem incomparable (h : Below u v) : ¬ u <+: v ∧ ¬ v <+: u := by
  induction h with
  | head hlt => simp [List.cons_prefix_cons,hlt.ne,hlt.ne']
  | cons a _ ih => simpa [List.cons_prefix_cons] using ih

end Below

variable {A B ε L : Type} {code : A → Except ε (List L)} {code' : B → Except ε (List L)}

/-- One word behind the other. -/
def pairCode (code : A → Except ε (List L)) (code' : B → Except ε (List L)) (x : A × B) :
    Except ε (List L) := do
  let u ← code x.1
  let v ← code' x.2
  .ok (u ++ v)

theorem pairCode_eq_ok {x : A × B} (h : pairCode code code' x = .ok w) :
    ∃ u v, code x.1 = .ok u ∧ code' x.2 = .ok v ∧ w = u ++ v := by
  unfold pairCode at h
  cases hu : code x.1 with
  | error e => simp [hu,bind,Except.bind] at h
  | ok u =>
    cases hv : code' x.2 with
    | error e => simp [hu,hv,bind,Except.bind] at h
    | ok v => exact ⟨u,v,rfl,rfl,by simpa [hu,hv,bind,Except.bind] using h.symm⟩

variable [LinearOrder L] {less : A → A → Prop} {less' : B → B → Prop} {S : A → Prop} {S' : B → Prop}

/-- Among the values in `S`, smaller ones have words below those of larger ones, as far as they
have words. -/
def OrderedCode (S : A → Prop) (less : A → A → Prop) (code : A → Except ε (List L)) : Prop :=
  ∀ ⦃a b u v⦄, S a → S b → code a = .ok u → code b = .ok v → less a b → Below u v

/-- Pairs compare by their first parts, and then by their second ones. -/
theorem OrderedCode.pair (h : OrderedCode S less code) (h' : OrderedCode S' less' code') :
    OrderedCode (fun x => S x.1 ∧ S' x.2) (Prod.Lex less less') (pairCode code code') := by
  rintro x y w w' ⟨ha,hc⟩ ⟨hb,hd⟩ hx hy hless
  obtain ⟨u,s,hu,hs,rfl⟩ := pairCode_eq_ok hx
  obtain ⟨v,t,hv,ht,rfl⟩ := pairCode_eq_ok hy
  cases hless with
  | left _ _ hlt => exact (h ha hb hu hv hlt).append s t
  | right _ hlt =>
    obtain rfl : u = v := Except.ok.inj (hu.symm.trans hv)
    exact (h' hc hd hs ht hlt).append_left u

/-- Where any two values compare, a word determines its value and the order of the values. -/
theorem OrderedCode.faithful [Std.Trichotomous less] (h : OrderedCode S less code)
    (hsa : S a) (hsb : S b) (ha : code a = .ok u) (hb : code b = .ok v) :
    (u = v ↔ a = b) ∧ (u < v ↔ less a b) ∧ (u <+: v → u = v) := by
  have hsame : a = b → u = v := by
    rintro rfl
    exact Except.ok.inj (ha.symm.trans hb)
  rcases trichotomous_of less a b with hlt | heq | hgt
  · have hbelow := h hsa hsb ha hb hlt
    have hne : u ≠ v := fun huv => hbelow.incomparable.1 (huv ▸ List.prefix_rfl)
    exact ⟨iff_of_false hne (mt hsame hne),iff_of_true hbelow.lt hlt,
      fun hp => absurd hp hbelow.incomparable.1⟩
  · obtain rfl := hsame heq
    exact ⟨iff_of_true rfl heq,⟨fun hlt => absurd hlt (lt_irrefl u),
      fun hlt => (h hsa hsb ha hb hlt).lt⟩,fun _ => rfl⟩
  · have hbelow := h hsb hsa hb ha hgt
    have hne : u ≠ v := fun huv => hbelow.incomparable.1 (huv ▸ List.prefix_rfl)
    exact ⟨iff_of_false hne (mt hsame hne),
      iff_of_false hbelow.lt.asymm fun hlt => (h hsa hsb ha hb hlt).lt.asymm hbelow.lt,
      fun hp => absurd hp hbelow.incomparable.2⟩

end PredTrans.Library
