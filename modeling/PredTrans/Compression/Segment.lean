import PredTrans.Library.Memory

/-! A segment goes to the checkpoint as the first `size` bytes of its block. -/

namespace PredTrans.Compression

open Library List

structure Segment where
  start : Nat
  count : Nat
  size : Nat
  block : Memory

/-- The segments follow one another from row `a` on, and each stores its part of the rows
in the sense of `E`. -/
def Covers {R : Type*} (E : Segment → List R → Prop) : Nat → List Segment → List R → Prop
  | _, [], rows => rows = []
  | a, s :: segments, rows => s.start = a ∧ s.count ≤ rows.length ∧ E s (rows.take s.count) ∧
      Covers E (a + s.count) segments (rows.drop s.count)

theorem Covers.append (h : Covers E a segments rows) (hs : E s rows')
    (hcount : s.count = rows'.length) (hstart : s.start = a + rows.length) :
    Covers E a (segments ++ [s]) (rows ++ rows') := by
  induction segments generalizing a rows with
  | nil =>
    subst h
    refine ⟨by simpa using hstart,by simp [hcount],?_,?_⟩
    · simpa [hcount] using hs
    · simp [Covers,hcount]
  | cons t segments ih =>
    obtain ⟨ht,hle,he,hrest⟩ := h
    refine ⟨ht,?_,?_,?_⟩
    · rw [length_append]
      omega
    · rwa [take_append_of_le_length hle]
    · rw [drop_append_of_le_length hle]
      apply ih hrest
      rw [length_drop]
      omega

end PredTrans.Compression
