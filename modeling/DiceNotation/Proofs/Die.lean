import Mathlib
import DiceNotation.Node.Build

/-!
# Faces of dice

The answers in the range of a well-formed die show exactly its faces.  All
faces lie between the bounds of the die, and both bounds are faces.
-/

namespace DiceNotation
namespace Die

/-- A die whose parameters passed the checks of its constructor. -/
def WellFormed : Die → Prop
  | .sided sides => 2 ≤ sides ∧ (sides : Int) ≤ Limits.highest
  | .custom faces =>
      faces ≠ [] ∧ faces.length ≤ mostFaces ∧ ∀ face ∈ faces, Limits.Holds face
  | .fudge => True

theorem wellFormed_ofSides
    {sides : Int} {d : Die}
    (hsides : Limits.Holds sides)
    (h : ofSides sides = .ok d) :
    d.WellFormed := by
  unfold ofSides at h
  split at h
  · cases h
  · cases h
    have hhigh := hsides.2
    exact ⟨by omega, by omega⟩

theorem wellFormed_ofFaces
    {faces : List Int} {d : Die}
    (hfaces : ∀ face ∈ faces, Limits.Holds face)
    (h : ofFaces faces = .ok d) :
    d.WellFormed := by
  unfold ofFaces at h
  split at h
  · cases h
  · rename_i hne
    split at h
    · cases h
    · cases h
      exact ⟨hne, by omega, hfaces⟩

theorem range_le {d : Die} (h : d.WellFormed) :
    d.range.1 ≤ d.range.2 := by
  cases d with
  | sided sides =>
      have hsides := h.1
      simp only [Die.range]
      omega
  | custom faces =>
      have hpos := List.length_pos_iff.mpr h.1
      simp only [Die.range]
      omega
  | fudge => decide

theorem mem_of_min?_getD
    {faces : List Int}
    (h : faces ≠ []) :
    faces.min?.getD 0 ∈ faces := by
  cases hmin : faces.min? with
  | none => exact absurd (List.min?_eq_none_iff.mp hmin) h
  | some n => exact List.min?_mem hmin

theorem mem_of_max?_getD
    {faces : List Int}
    (h : faces ≠ []) :
    faces.max?.getD 0 ∈ faces := by
  cases hmax : faces.max? with
  | none => exact absurd (List.max?_eq_none_iff.mp hmax) h
  | some n => exact List.max?_mem hmax

theorem min?_getD_le
    {faces : List Int} {face : Int}
    (h : face ∈ faces) :
    faces.min?.getD 0 ≤ face := by
  cases hmin : faces.min? with
  | none =>
      exact absurd h
        (by rw [List.min?_eq_none_iff.mp hmin]; exact List.not_mem_nil)
  | some n => exact (List.min?_eq_some_iff.mp hmin).2 face h

theorem le_max?_getD
    {faces : List Int} {face : Int}
    (h : face ∈ faces) :
    face ≤ faces.max?.getD 0 := by
  cases hmax : faces.max? with
  | none =>
      exact absurd h
        (by rw [List.max?_eq_none_iff.mp hmax]; exact List.not_mem_nil)
  | some n => exact (List.max?_eq_some_iff.mp hmax).2 face h

/-- An answer in the range is the position of a listed face. -/
theorem face_custom_mem
    {faces : List Int} {n : Int}
    (hlow : 0 ≤ n)
    (hhigh : n ≤ faces.length - 1) :
    (custom faces).face n ∈ faces := by
  have hlt : n.toNat < faces.length := by omega
  simp only [face]
  rw [List.getD_eq_getElem _ _ hlt]
  exact List.getElem_mem hlt

/-- Every listed face is shown by an answer in the range. -/
theorem exists_face_custom
    {faces : List Int} {x : Int}
    (h : x ∈ faces) :
    ∃ n, 0 ≤ n ∧ n ≤ (faces.length : Int) - 1 ∧ (custom faces).face n = x := by
  obtain ⟨i, hi, rfl⟩ := List.mem_iff_getElem.mp h
  refine ⟨i, by omega, by omega, ?_⟩
  simp only [face, Int.toNat_natCast]
  exact List.getD_eq_getElem _ _ hi

/-- An answer in the range shows a face between the bounds, and a listed one
if faces are listed. -/
theorem face_spec
    {d : Die}
    (hd : d.WellFormed)
    {n : Int}
    (hlow : d.range.1 ≤ n)
    (hhigh : n ≤ d.range.2) :
    d.bound .least ≤ d.face n ∧ d.face n ≤ d.bound .greatest ∧
      (d.listedFaces ≠ [] → d.face n ∈ d.listedFaces) := by
  cases d with
  | sided sides => exact ⟨hlow, hhigh, fun h => absurd rfl h⟩
  | custom faces =>
      have hmem := face_custom_mem hlow hhigh
      exact ⟨min?_getD_le hmem, le_max?_getD hmem, fun _ => hmem⟩
  | fudge =>
      refine ⟨hlow, hhigh, ?_⟩
      intro _
      simp only [range] at hlow hhigh
      simp only [face, listedFaces, List.mem_cons]
      omega

/-- Listed faces are shown. -/
theorem exists_face_of_mem
    {d : Die} {x : Int}
    (h : x ∈ d.listedFaces) :
    ∃ n, d.range.1 ≤ n ∧ n ≤ d.range.2 ∧ d.face n = x := by
  cases d with
  | sided sides => exact absurd h List.not_mem_nil
  | custom faces => exact exists_face_custom h
  | fudge =>
      have hx : x = -1 ∨ x = 0 ∨ x = 1 := by simpa [listedFaces] using h
      refine ⟨x, ?_, ?_, rfl⟩
      · simp only [range]
        omega
      · simp only [range]
        omega

/-- Both bounds of a well-formed die are faces that it lists, if it lists
any. -/
theorem bound_mem_listedFaces
    {d : Die}
    (h : d.listedFaces ≠ [])
    (e : Extreme) :
    d.bound e ∈ d.listedFaces := by
  cases d with
  | sided sides => exact absurd rfl h
  | custom faces =>
      cases e with
      | least => exact mem_of_min?_getD h
      | greatest => exact mem_of_max?_getD h
  | fudge => cases e <;> decide

/-- Both bounds of a well-formed die are shown. -/
theorem exists_face_bound
    {d : Die}
    (hd : d.WellFormed)
    (e : Extreme) :
    ∃ n, d.range.1 ≤ n ∧ n ≤ d.range.2 ∧ d.face n = d.bound e := by
  cases d with
  | sided sides =>
      have hsides := hd.1
      cases e with
      | least => exact ⟨1, le_refl _, by simp only [range]; omega, rfl⟩
      | greatest => exact ⟨sides, by simp only [range]; omega, le_refl _, rfl⟩
  | custom faces =>
      have hmem := bound_mem_listedFaces (d := custom faces) hd.1 e
      exact exists_face_of_mem hmem
  | fudge => exact exists_face_of_mem (bound_mem_listedFaces (by decide) e)

end Die
end DiceNotation
