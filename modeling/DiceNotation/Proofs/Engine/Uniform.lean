import Mathlib.Algebra.Order.Floor.Div
import Mathlib.Data.Set.Card
import DiceNotation.Engine.Seeded
import DiceNotation.Proofs.Roll.Realizes

/-!
# Uniform numbers are uniform

A word stands for a place if its product with the size of the range lies in the
interval of that place.  The intervals begin behind the rejected products, and
their length is a multiple of the size, so each of them holds equally many
products.  None of the machine words overflows on the way.
-/

namespace DiceNotation
namespace Uniform

/-! ## Machine words -/

/-- How many numbers there are in a range. -/
def width (low high : Int32) : Nat :=
  (high.toInt - low.toInt + 1).toNat

section Words

variable {low high : Int32}

theorem width_pos (h : low ≤ high) : 0 < width low high := by
  have hle := Int32.le_iff_toInt_le.mp h
  rw [width]
  omega

theorem width_le (low high : Int32) : width low high ≤ 2 ^ 32 := by
  have hlow := low.le_toInt
  have hhigh := high.toInt_lt
  rw [width]
  omega

/-- No range is too large for its size. -/
theorem toNat_size (h : low ≤ high) :
    (size low high).toNat = width low high := by
  have hle := Int32.le_iff_toInt_le.mp h
  have hlow := low.le_toInt
  have hhigh := high.toInt_lt
  have hdiff : (high.toInt64 - low.toInt64).toInt = high.toInt - low.toInt := by
    rw [Int64.toInt_sub, Int32.toInt_toInt64, Int32.toInt_toInt64]
    exact Int.bmod_eq_of_le (by omega) (by omega)
  have hnonneg : 0 ≤ high.toInt64 - low.toInt64 := by
    rw [Int64.le_iff_toInt_le, hdiff, Int64.toInt_zero]
    omega
  rw [size, UInt64.toNat_add, Int64.toNat_toUInt64_of_le hnonneg,
    Int64.toNatClampNeg, hdiff, UInt64.toNat_one, width]
  omega

theorem toNat_threshold
    {s : UInt32}
    (h : 0 < s.toNat) :
    (threshold s).toNat = 2 ^ 32 % s.toNat := by
  have hlt := s.toNat_lt
  have hneg : (0 - s).toNat = 2 ^ 32 - s.toNat := by
    rw [UInt32.toNat_sub, UInt32.toNat_zero, Nat.add_zero]
    exact Nat.mod_eq_of_lt (Nat.sub_lt (by decide) h)
  rw [threshold, UInt32.toNat_mod, hneg]
  exact (Nat.mod_eq_sub_mod hlt.le).symm

theorem product_lt
    {s : UInt64}
    (h : s.toNat ≤ 2 ^ 32)
    (word : UInt32) :
    word.toNat * s.toNat < 2 ^ 32 * 2 ^ 32 :=
  calc
    word.toNat * s.toNat ≤ word.toNat * 2 ^ 32 := Nat.mul_le_mul_left _ h
    _ < 2 ^ 32 * 2 ^ 32 := Nat.mul_lt_mul_of_pos_right word.toNat_lt (by decide)

/-- The product of a word and a size fits in a double word. -/
theorem toNat_product
    {s : UInt64}
    (h : s.toNat ≤ 2 ^ 32)
    (word : UInt32) :
    (word.toUInt64 * s).toNat = word.toNat * s.toNat := by
  rw [UInt64.toNat_mul, UInt32.toNat_toUInt64]
  exact Nat.mod_eq_of_lt (product_lt h word)

/-- The high half of a product is a word. -/
theorem toNat_high
    {s : UInt64}
    (h : s.toNat ≤ 2 ^ 32)
    (word : UInt32) :
    ((word.toUInt64 * s) >>> 32).toUInt32.toNat =
      word.toNat * s.toNat / 2 ^ 32 := by
  rw [UInt64.toNat_toUInt32, UInt64.toNat_shiftRight, toNat_product h]
  change (word.toNat * s.toNat) >>> 32 % 2 ^ 32 = _
  rw [Nat.shiftRight_eq_div_pow]
  exact Nat.mod_eq_of_lt (Nat.div_lt_of_lt_mul (product_lt h word))

/-- Which place a word stands for, in natural numbers: that the threshold is not
always computed makes no difference, and neither does the range of all
numbers. -/
theorem map_toNat_place?
    {s : UInt64}
    (hpos : 0 < s.toNat)
    (hle : s.toNat ≤ 2 ^ 32)
    (word : UInt32) :
    (place? s word).map UInt32.toNat =
      if word.toNat * s.toNat % 2 ^ 32 < 2 ^ 32 % s.toNat then none
      else some (word.toNat * s.toNat / 2 ^ 32) := by
  rw [place?]
  split
  · rename_i hall
    have hs : s.toNat = 2 ^ 32 := by
      rw [hall]
      rfl
    rw [hs, Nat.mul_mod_left, Nat.mod_self, if_neg (Nat.lt_irrefl 0),
      Nat.mul_div_cancel _ (by decide), Option.map_some]
  · rename_i hall
    have hlt : s.toNat < 2 ^ 32 := by
      refine lt_of_le_of_ne hle fun hs => hall ?_
      rw [← UInt64.toNat_inj, hs]
      rfl
    have hsize : s.toUInt32.toNat = s.toNat := by
      rw [UInt64.toNat_toUInt32, Nat.mod_eq_of_lt hlt]
    have hlow :
        (word.toUInt64 * s).toUInt32.toNat = word.toNat * s.toNat % 2 ^ 32 := by
      rw [UInt64.toNat_toUInt32, toNat_product hle]
    have hthreshold : (threshold s.toUInt32).toNat = 2 ^ 32 % s.toNat := by
      rw [toNat_threshold (hsize ▸ hpos), hsize]
    have hsmall := Nat.mod_lt (2 ^ 32) hpos
    have hrejected : ((word.toUInt64 * s).toUInt32 < s.toUInt32 &&
        (word.toUInt64 * s).toUInt32 < threshold s.toUInt32) = true ↔
          word.toNat * s.toNat % 2 ^ 32 < 2 ^ 32 % s.toNat := by
      rw [Bool.and_eq_true, decide_eq_true_eq, decide_eq_true_eq,
        UInt32.lt_iff_toNat_lt, UInt32.lt_iff_toNat_lt, hsize, hlow, hthreshold]
      exact ⟨And.right, fun h => ⟨h.trans hsmall, h⟩⟩
    by_cases h : word.toNat * s.toNat % 2 ^ 32 < 2 ^ 32 % s.toNat
    · rw [if_pos h]
      dsimp only
      rw [if_pos (hrejected.mpr h), Option.map_none]
    · rw [if_neg h]
      dsimp only
      rw [if_neg (mt hrejected.mp h), Option.map_some, toNat_high hle]

/-- The products of the words that stand for a place are those from the end of
the rejected products up to the next place. -/
theorem exists_place_iff
    {s : UInt64}
    (hpos : 0 < s.toNat)
    (hle : s.toNat ≤ 2 ^ 32)
    (word : UInt32) (place : Nat) :
    (∃ p, place? s word = some p ∧ p.toNat = place) ↔
      place * 2 ^ 32 + 2 ^ 32 % s.toNat ≤ word.toNat * s.toNat ∧
        word.toNat * s.toNat < place * 2 ^ 32 + 2 ^ 32 := by
  have hproduct := Nat.div_add_mod (word.toNat * s.toNat) (2 ^ 32)
  have hlow := Nat.mod_lt (word.toNat * s.toNat) (by decide : 0 < 2 ^ 32)
  rw [← Option.map_eq_some_iff, map_toNat_place? hpos hle]
  split
  · rename_i hrejected
    refine iff_of_false (by simp) ?_
    omega
  · rename_i haccepted
    rw [Option.some.injEq]
    omega

/-- The place of a number in a range that starts with the given number. -/
def place (low n : Int32) : Nat :=
  (n.toInt - low.toInt).toNat

theorem toInt_eq_add_place
    {n : Int32}
    (h : low ≤ n) :
    n.toInt = low.toInt + place low n := by
  have hle := Int32.le_iff_toInt_le.mp h
  rw [place]
  omega

theorem place_lt
    {n : Int32}
    (hlow : low ≤ n)
    (hhigh : n ≤ high) :
    place low n < width low high := by
  have hlow' := Int32.le_iff_toInt_le.mp hlow
  have hhigh' := Int32.le_iff_toInt_le.mp hhigh
  rw [place, width]
  omega

theorem mem_range_of_place
    {n : Int32} {k : Nat}
    (hn : n.toInt = low.toInt + k)
    (hk : k < width low high) :
    low ≤ n ∧ n ≤ high := by
  rw [width] at hk
  rw [Int32.le_iff_toInt_le, Int32.le_iff_toInt_le]
  omega

/-- Adding a place of the range to its least number does not leave the range. -/
theorem toInt_add_place
    {place : UInt32}
    (hplace : place.toNat < width low high) :
    (low + place.toInt32).toInt = low.toInt + place.toNat := by
  have hlow := low.le_toInt
  have hhigh := high.toInt_lt
  have hp : place.toInt32.toInt = (place.toNat : Int).bmod (2 ^ 32) :=
    BitVec.toInt_eq_toNat_bmod place.toBitVec
  rw [width] at hplace
  rw [Int32.toInt_add, hp, Int.add_bmod_bmod]
  exact Int.bmod_eq_of_le (by omega) (by omega)

/-- Which number a word stands for: one from the range, at the place that
belongs to the product of the word and the size. -/
theorem number?_eq_some_iff
    (h : low ≤ high)
    (word : UInt32) (n : Int32) :
    number? low high word = some n ↔
      (low ≤ n ∧ n ≤ high) ∧
        place low n * 2 ^ 32 + 2 ^ 32 % width low high ≤
          word.toNat * width low high ∧
          word.toNat * width low high < place low n * 2 ^ 32 + 2 ^ 32 := by
  have hsize := toNat_size h
  have hplaces :=
    exists_place_iff (hsize ▸ width_pos h) (hsize ▸ width_le low high) word
  rw [hsize] at hplaces
  rw [number?, Option.map_eq_some_iff]
  constructor
  · rintro ⟨p, hp, rfl⟩
    obtain ⟨hfirst, hnext⟩ := (hplaces p.toNat).mp ⟨p, hp, rfl⟩
    have hword : word.toNat * width low high < 2 ^ 32 * width low high :=
      Nat.mul_lt_mul_of_pos_right word.toNat_lt (width_pos h)
    have hlt : p.toNat < width low high := by omega
    have hn := toInt_add_place hlt
    have hplace : place low (low + p.toInt32) = p.toNat := by
      rw [place, hn]
      omega
    rw [hplace]
    exact ⟨mem_range_of_place hn hlt, hfirst, hnext⟩
  · rintro ⟨⟨hlow, hhigh⟩, hinterval⟩
    obtain ⟨p, hp, hplace⟩ := (hplaces (place low n)).mpr hinterval
    refine ⟨p, hp, ?_⟩
    rw [← Int32.toInt_inj, toInt_add_place (hplace ▸ place_lt hlow hhigh),
      hplace, toInt_eq_add_place hlow]

end Words

/-! ## Counting -/

/-- In an interval whose length is a multiple of `s` there are so many multiples
of `s`, one after the other. -/
theorem mul_mem_interval_iff
    {s : Nat}
    (h : 0 < s)
    (first count k : Nat) :
    first ≤ k * s ∧ k * s < first + count * s ↔
      k ∈ Set.Ico (first ⌈/⌉ s) (first ⌈/⌉ s + count) := by
  have hceil (a : Nat) : first ⌈/⌉ s ≤ a ↔ first ≤ a * s := by
    rw [ceilDiv_le_iff_le_mul h, Nat.mul_comm]
  rw [Set.mem_Ico, hceil, and_congr_right_iff]
  intro _
  rcases Nat.lt_or_ge k count with hk | hk
  · have hmul := Nat.mul_lt_mul_of_pos_right hk h
    exact iff_of_true (by omega) (by omega)
  · obtain ⟨j, rfl⟩ := Nat.exists_eq_add_of_le hk
    have hj := hceil j
    rw [Nat.add_mul, ← not_le, ← not_le]
    omega

/-- The words that stand for a number follow one another, and there are equally
many for all numbers of the range. -/
theorem exists_image_toNat_words
    {low high n : Int32}
    (hlow : low ≤ n)
    (hhigh : n ≤ high) :
    ∃ first, UInt32.toNat '' {word | number? low high word = some n} =
      Set.Ico first (first + 2 ^ 32 / width low high) := by
  have h : low ≤ high := Int32.le_trans hlow hhigh
  have hplace := place_lt hlow hhigh
  have hpos := width_pos h
  have hwords := Nat.div_add_mod' (2 ^ 32) (width low high)
  have hnumber (word : UInt32) := number?_eq_some_iff h word n
  set s := width low high
  set p := place low n
  refine ⟨(p * 2 ^ 32 + 2 ^ 32 % s) ⌈/⌉ s, Set.ext fun k => ?_⟩
  have hend :
      p * 2 ^ 32 + 2 ^ 32 % s + 2 ^ 32 / s * s = p * 2 ^ 32 + 2 ^ 32 := by omega
  rw [← mul_mem_interval_iff hpos, hend]
  constructor
  · rintro ⟨word, hword, rfl⟩
    exact ((hnumber word).mp hword).2
  · intro hk
    have hlt : k < 2 ^ 32 := by
      have hbehind : (p + 1) * 2 ^ 32 ≤ s * 2 ^ 32 :=
        Nat.mul_le_mul_right _ hplace
      apply Nat.lt_of_mul_lt_mul_right (a := s)
      rw [Nat.mul_comm (2 ^ 32)]
      omega
    have hword : (UInt32.ofNat k).toNat = k := UInt32.toNat_ofNat_of_lt' hlt
    refine ⟨UInt32.ofNat k, (hnumber _).mpr ⟨⟨hlow, hhigh⟩, ?_⟩, hword⟩
    rwa [hword]

theorem ncard_words
    {low high n : Int32}
    (hlow : low ≤ n)
    (hhigh : n ≤ high) :
    {word | number? low high word = some n}.ncard =
      2 ^ 32 / width low high := by
  obtain ⟨first, hfirst⟩ := exists_image_toNat_words hlow hhigh
  have hinjective : Function.Injective UInt32.toNat :=
    fun _ _ => UInt32.toNat_inj.mp
  rw [← Set.ncard_image_of_injective _ hinjective, hfirst, ← Finset.coe_Ico,
    Set.ncard_coe_finset, Nat.card_Ico, Nat.add_sub_cancel_left]

/-! ## Streams of words -/

section Streams

variable {γ : Type} {next : γ → UInt32 × γ}

/-- A stream yields these words one after another. -/
inductive Yields (next : γ → UInt32 × γ) : γ → List UInt32 → γ → Prop where
  | nil (s : γ) : Yields next s [] s
  | cons {s t : γ} {words : List UInt32} :
      Yields next (next s).2 words t → Yields next s ((next s).1 :: words) t

theorem yields_cons_iff
    {s t : γ} {word : UInt32} {words : List UInt32} :
    Yields next s (word :: words) t ↔
      (next s).1 = word ∧ Yields next (next s).2 words t := by
  constructor
  · rintro (_ | h)
    exact ⟨rfl, h⟩
  · rintro ⟨rfl, h⟩
    exact .cons h

theorem yields_singleton_iff
    {s t : γ} {word : UInt32} :
    Yields next s [word] t ↔ (next s).1 = word ∧ (next s).2 = t := by
  rw [yields_cons_iff, and_congr_right_iff]
  intro _
  constructor
  · rintro ⟨⟩
    rfl
  · rintro rfl
    exact .nil _

/-- The number that is drawn is the one that the first accepted word stands
for. -/
theorem draw_eq_some_iff
    {low high n : Int32} {tries : Nat} {s rest : γ} :
    draw next low high tries s = some (n, rest) ↔
      ∃ rejected word, rejected.length < tries ∧
        Yields next s (rejected ++ [word]) rest ∧
        (∀ r ∈ rejected, number? low high r = none) ∧
        number? low high word = some n := by
  induction tries generalizing s with
  | zero => simp [draw]
  | succ tries ih =>
      rw [draw]
      dsimp only
      constructor
      · intro h
        cases hnumber : number? low high (next s).1 with
        | none =>
            rw [hnumber] at h
            obtain ⟨rejected, word, hlength, hyields, hrejected,
              hword⟩ := ih.mp h
            exact ⟨(next s).1 :: rejected, word,
              Nat.succ_lt_succ hlength, .cons hyields,
              List.forall_mem_cons.mpr ⟨hnumber, hrejected⟩, hword⟩
        | some m =>
            rw [hnumber] at h
            cases h
            exact ⟨[], _, Nat.succ_pos _, .cons (.nil _),
              List.forall_mem_nil _, hnumber⟩
      · rintro ⟨rejected, word, hlength, hyields, hrejected, hword⟩
        cases rejected with
        | nil =>
            obtain ⟨rfl, rfl⟩ := yields_singleton_iff.mp hyields
            rw [hword]
        | cons r rejected =>
            obtain ⟨hfirst, hrest⟩ := yields_cons_iff.mp hyields
            rw [List.forall_mem_cons] at hrejected
            rw [hfirst, hrejected.1]
            exact ih.mpr
              ⟨rejected, word, Nat.lt_of_succ_lt_succ hlength, hrest,
                hrejected.2, hword⟩

theorem mem_range_of_draw
    {low high n : Int32} {tries : Nat} {s rest : γ}
    (h : low ≤ high)
    (hdraw : draw next low high tries s = some (n, rest)) :
    low ≤ n ∧ n ≤ high := by
  obtain ⟨-, word, -, -, -, hword⟩ := draw_eq_some_iff.mp hdraw
  exact ((number?_eq_some_iff h word n).mp hword).1

/-- Wherever the word comes next in a stream, it is accepted at once and the
number is drawn. -/
def GivesAtOnce (low high n : Int32) (word : UInt32) : Prop :=
  ∀ {γ : Type} (next : γ → UInt32 × γ) (tries : Nat) (s : γ),
    (next s).1 = word →
      draw next low high (tries + 1) s = some (n, (next s).2)

theorem givesAtOnce_iff
    {low high n : Int32} {word : UInt32} :
    GivesAtOnce low high n word ↔ number? low high word = some n := by
  constructor
  · intro h
    have hdraw := h (fun _ : Unit => (word, ())) 0 () rfl
    rw [draw] at hdraw
    dsimp only at hdraw
    cases hnumber : number? low high word with
    | none =>
        rw [hnumber] at hdraw
        cases hdraw
    | some m =>
        rw [hnumber] at hdraw
        cases hdraw
        rfl
  · rintro h γ next tries s rfl
    rw [draw]
    dsimp only
    rw [h]

end Streams

/-- Every number that is drawn from a range lies in it, whatever words the
stream yields.  Every number of the range is drawn at once for equally many
words: as often as the size of the range goes into the number of all words. -/
theorem numbers_drawn_uniformly
    {low high : Int32}
    (h : low ≤ high) :
    (∀ {γ : Type} (next : γ → UInt32 × γ) (tries : Nat)
      (s rest : γ) (n : Int32),
        draw next low high tries s = some (n, rest) → low ≤ n ∧ n ≤ high) ∧
      ∀ n, low ≤ n → n ≤ high →
        {word | GivesAtOnce low high n word}.ncard =
          2 ^ 32 / (high.toInt - low.toInt + 1).toNat := by
  constructor
  · intro γ next tries s rest n hdraw
    exact mem_range_of_draw h hdraw
  · intro n hlow hhigh
    simp only [givesAtOnce_iff]
    exact ncard_words hlow hhigh

/-- In the range of a fudge die the word zero is rejected, and every number
comes from a third of the other words.  In the range of all numbers, every
number comes from a single word. -/
theorem fudge_die_and_all_numbers_drawn_uniformly :
    (draw (fun word => (word, word + 1)) (-1) 1 2 0 = some (-1, 2) ∧
        (-1 : Int32) ≤ -1 ∧ (-1 : Int32) ≤ 1 ∧
        {word | GivesAtOnce (-1) 1 0 word}.ncard = 1431655765) ∧
      {word | GivesAtOnce Int32.minValue Int32.maxValue (-7) word}.ncard =
        1 := by
  have hdraw :
      draw (fun word => (word, word + 1)) (-1) 1 2 0 = some (-1, 2) := by decide
  obtain ⟨hrange, hfudge⟩ :=
    numbers_drawn_uniformly (by decide : (-1 : Int32) ≤ 1)
  obtain ⟨-, hall⟩ :=
    numbers_drawn_uniformly (by decide : Int32.minValue ≤ Int32.maxValue)
  obtain ⟨hlow, hhigh⟩ := hrange _ _ _ _ _ hdraw
  exact ⟨⟨hdraw, hlow, hhigh, hfudge 0 (by decide) (by decide)⟩,
    hall (-7) (by decide) (by decide)⟩

end Uniform

theorem toInt_ofInt_of_holds
    {n : Int}
    (h : Limits.Holds n) :
    (Int32.ofInt n).toInt = n := by
  obtain ⟨hlow, hhigh⟩ := h
  rw [Limits.lowest] at hlow
  rw [Limits.highest] at hhigh
  exact Int32.toInt_ofInt_of_le (by omega) (by omega)

/-- The seeded engine answers inside of the requested range. -/
theorem Engine.inRange_seeded : Engine.seeded.InRange := by
  intro low high n s t hle h
  obtain ⟨twister, left⟩ := s
  cases left with
  | zero => cases h
  | succ left =>
      simp only [seeded, Option.ite_none_right_eq_some, Option.map_eq_some_iff,
        Prod.mk.injEq] at h
      obtain ⟨⟨hlow, hhigh⟩, ⟨m, rest⟩, hdraw, rfl, -⟩ := h
      have hle' : Int32.ofInt low ≤ Int32.ofInt high := by
        rwa [Int32.le_iff_toInt_le, toInt_ofInt_of_holds hlow,
          toInt_ofInt_of_holds hhigh]
      have hmem := Uniform.mem_range_of_draw hle' hdraw
      rwa [Int32.le_iff_toInt_le, Int32.le_iff_toInt_le,
        toInt_ofInt_of_holds hlow, toInt_ofInt_of_holds hhigh] at hmem

end DiceNotation
