import Owlchain.Crypto.ReedSolomon
import Owlchain.Library.Radix

/-! The in-place radix conversions. A pass overwrites the front of the digit array
with the quotient while it still reads the dividend behind: after `i` digits the
array is the quotient so far, then cells that are no longer needed, then the unread
digits. So a pass is one long division, no write passes the read index, and the
`do … while` loop emits the digits of the other base, least significant first. -/

namespace Owlchain.Crypto

open Owlchain.Library Loop Radix

/-- A digit list as stored in an `int[]`. -/
def ints (ds : List ℕ) : List ℤ := ds.map (fun d : ℕ => (d : ℤ))

@[simp] theorem length_ints (ds : List ℕ) : (ints ds).length = ds.length := by simp [ints]

@[simp] theorem ints_nil : ints [] = [] := rfl

@[simp] theorem ints_cons (d : ℕ) (ds : List ℕ) : ints (d :: ds) = (d : ℤ) :: ints ds := rfl

@[simp] theorem ints_append (ds es : List ℕ) : ints (ds ++ es) = ints ds ++ ints es := by
  simp [ints]

/-- What the loop needs of a conversion step: its arithmetic is exact division by `c`. -/
structure Exact (b c : ℕ) (step : Pass → ℕ → Result Pass) : Prop where
  base : 1 < b
  divisor : 1 < c
  step_eq : ∃ quotient remainder : ℤ → ℤ, step = convertStep b c quotient remainder ∧
    (∀ t : ℕ, quotient t = (t / c : ℕ)) ∧ ∀ t : ℕ, remainder t = (t % c : ℕ)

theorem encodeStep_exact : Exact 10 32 encodeStep where
  base := by decide
  divisor := by decide
  step_eq := by
    refine ⟨_, _, rfl, fun t => ?_, fun t => ?_⟩
    · change ((t >>> 5 : ℕ) : ℤ) = _
      rw [Nat.shiftRight_eq_div_pow]
    · change ((t &&& 31 : ℕ) : ℤ) = _
      rw [Nat.and_two_pow_sub_one_eq_mod t 5]

theorem decodeStep_exact : Exact 32 10 decodeStep where
  base := by decide
  divisor := by decide
  step_eq := ⟨_, _, rfl, fun _ => rfl, fun _ => rfl⟩

/-- A write to the first cell behind a list. -/
theorem store_behind (q : List ℤ) (x : ℤ) (rest : List ℤ) (v : ℤ) :
    store (q ++ x :: rest) q.length v = .ok (q ++ v :: rest) := by
  rw [store_natCast (by simp)]
  simp

/-- A write to the first cell behind `q` when `d` has just been read: it overwrites a cell that is
no longer needed. -/
theorem store_gap (q gap : List ℤ) (d : ℤ) (rest : List ℤ) :
    ∃ gap', gap'.length = gap.length ∧ gap' ⊆ gap ++ [d] ∧
      ∀ v, store (q ++ gap ++ d :: rest) q.length v = .ok (q ++ v :: (gap' ++ rest)) := by
  cases gap with
  | nil => exact ⟨[], rfl, List.nil_subset _,
      fun v => by rw [List.append_nil]; exact store_behind q d rest v⟩
  | cons x gap =>
    refine ⟨gap ++ [d], by simp, List.subset_cons_self x _, fun v => ?_⟩
    rw [List.append_assoc, List.cons_append, store_behind, List.append_assoc, List.singleton_append]

/-- A loop that stores the `i`-th value at index `i` fills a zeroed array. -/
theorem fill_eq (xs : List ℤ) {k n : ℕ} (hk : xs.length = k) (hn : k ≤ n)
    (body : List ℤ → ℕ → Result (List ℤ))
    (hbody : ∀ (a : List ℤ) (i : ℕ) (hi : i < xs.length), body a i = store a i xs[i]) :
    (List.range k).foldlM body (List.replicate n 0) = .ok (xs ++ List.replicate (n - k) 0) := by
  subst hk
  obtain ⟨a, ha, h⟩ := foldlM_range (fun i a => a = xs.take i ++ List.replicate (n - i) 0)
    body xs.length (List.replicate n 0) (by
      rintro i hi _ rfl
      have htake : (xs.take i).length = i := by simp; omega
      have hzeros : List.replicate (n - i) (0 : ℤ) = 0 :: List.replicate (n - (i + 1)) 0 := by
        rw [show n - i = n - (i + 1) + 1 by omega]; rfl
      have hstore := store_behind (xs.take i) 0 (List.replicate (n - (i + 1)) 0) xs[i]
      rw [htake] at hstore
      refine ⟨_, by rw [hbody _ i hi, hzeros, hstore], ?_⟩
      rw [← List.take_concat_get' xs i hi, List.append_assoc, List.singleton_append]) (by simp)
  rw [ha, h, List.take_length]

section Pass

variable {b c : ℕ} {step : Pass → ℕ → Result Pass}

/-- The array of a pass that has read `ds` and not yet `rest`: `gap` is what is left
of the cells between the quotient and the read index. -/
def passState (b c : ℕ) (ds : List ℕ) (gap rest : List ℤ) : Pass :=
  ⟨ints (divide b c ds).1 ++ gap ++ rest, (divide b c ds).1.length, (divide b c ds).2⟩

/-- A conversion step once its read and its arithmetic are known. -/
theorem convertStep_eq (radix limit : ℤ) (quotient remainder : ℤ → ℤ) {s : Pass} {i : ℕ} {d t : ℤ}
    (hread : load s.digits i = .ok d) (ht : int32 (s.digit * radix + d) = t) :
    convertStep radix limit quotient remainder s i =
      if limit ≤ t then
        (store s.digits s.newLength (quotient t)).map (⟨·, s.newLength + 1, remainder t⟩)
      else if 0 < s.newLength then (store s.digits s.newLength 0).map (⟨·, s.newLength + 1, t⟩)
      else .ok ⟨s.digits, s.newLength, t⟩ := by
  subst ht
  rw [convertStep, hread, ok_bind]
  rfl

/-- A step reads the next digit at index `i`. It writes at or before that index, and moves no
other value into the cells between. -/
theorem step_passState (hs : Exact b c step) (ds : List ℕ) (d : ℕ) (hd : b * c + d < 2147483648 + b)
    (gap rest : List ℤ) {i : ℕ} (hgap : (divide b c ds).1.length + gap.length = i) :
    ∃ gap', step (passState b c ds gap ((d : ℤ) :: rest)) i =
      .ok (passState b c (ds ++ [d]) gap' rest) ∧
      (divide b c (ds ++ [d])).1.length + gap'.length = i + 1 ∧ gap' ⊆ gap ++ [(d : ℤ)] := by
  obtain ⟨quotient, remainder, rfl, hq, hr⟩ := hs.step_eq
  have hrem := divide_remainder_lt (b := b) (by have := hs.divisor; omega : 0 < c) ds
  have hnext := divide_concat (b := b) (c := c) ds d
  set s := divide b c ds with hsdef
  have hread : load (ints s.1 ++ gap ++ (d : ℤ) :: rest) (i : ℤ) = .ok (d : ℤ) := by
    rw [load_natCast (by simp; omega), List.getElem_append_right (by simp; omega)]
    simp [hgap]
  -- the running value stays in an `int`, so the arithmetic is exact
  have hbound : s.2 * b + d < 2147483648 := by
    have h1 := Nat.mul_le_mul_right b (Nat.succ_le_of_lt hrem)
    rw [Nat.succ_mul, Nat.mul_comm c b] at h1
    omega
  have hint : int32 ((s.2 : ℤ) * b + d) = ((s.2 * b + d : ℕ) : ℤ) := by
    rw [← Nat.cast_mul, ← Nat.cast_add]
    exact int32_natCast hbound
  obtain ⟨gap', hlen, hsub, hwrite⟩ := store_gap (ints s.1) gap d rest
  rw [length_ints] at hwrite
  have hstep := convertStep_eq b c quotient remainder
    (s := ⟨ints s.1 ++ gap ++ (d : ℤ) :: rest, s.1.length, s.2⟩) hread hint
  simp only [hwrite, hq, hr, Nat.cast_le, Except.map] at hstep
  rw [passState, ← hsdef, hstep]
  simp only [passState, hnext, divStep]
  split_ifs with hle hpos
  · exact ⟨gap', by simp [ints], by simp; omega, hsub⟩
  · exact ⟨gap', by simp [ints], by simp; omega, hsub⟩
  · exact ⟨gap ++ [(d : ℤ)], by simp, by simp; omega, List.Subset.refl _⟩

/-- Reading on from index `i`. -/
theorem read_passState (hs : Exact b c step) (r : List ℕ) (hr : ∀ d ∈ r, b * c + d < 2147483648 + b)
    (tail : List ℤ) : ∀ (ds : List ℕ) (gap : List ℤ) {i : ℕ},
      (divide b c ds).1.length + gap.length = i →
      ∃ gap', (List.range r.length).foldlM (fun s k => step s (i + k))
          (passState b c ds gap (ints r ++ tail)) = .ok (passState b c (ds ++ r) gap' tail) ∧
        (divide b c (ds ++ r)).1.length + gap'.length = i + r.length ∧ gap' ⊆ gap ++ ints r := by
  induction r with
  | nil =>
    intro ds gap i hgap
    refine ⟨gap, ?_, by simpa using hgap, by simp⟩
    rw [List.append_nil]
    rfl
  | cons d r ih =>
    intro ds gap i hgap
    obtain ⟨gap₁, hstep, hlen₁, hsub₁⟩ :=
      step_passState hs ds d (hr d (by simp)) gap (ints r ++ tail) hgap
    obtain ⟨gap₂, hread, hlen₂, hsub₂⟩ :=
      ih (fun x hx => hr x (by simp [hx])) (ds ++ [d]) gap₁ hlen₁
    rw [List.append_assoc, List.singleton_append] at hread hlen₂
    refine ⟨gap₂, ?_, by rw [hlen₂, List.length_cons]; omega, fun x hx => ?_⟩
    · rw [List.length_cons, List.range_succ_eq_map, List.foldlM_cons, ints_cons, List.cons_append,
        Nat.add_zero, hstep, ok_bind, List.foldlM_map]
      simpa only [Nat.add_succ, Nat.succ_add] using hread
    · rcases List.mem_append.mp (hsub₂ hx) with hx | hx
      · have := hsub₁ hx
        simp only [List.mem_append, ints_cons, List.mem_cons] at this ⊢
        tauto
      · simp [hx]

/-- The first reads of a pass. -/
theorem reads_eq (hs : Exact b c step) (r : List ℕ) (hr : ∀ d ∈ r, b * c + d < 2147483648 + b)
    (tail : List ℤ) :
    ∃ gap, (List.range r.length).foldlM step ⟨ints r ++ tail, 0, 0⟩ =
      .ok (passState b c r gap tail) ∧
      (divide b c r).1.length + gap.length = r.length ∧ gap ⊆ ints r := by
  obtain ⟨gap, hread, hlen, hsub⟩ := read_passState hs r hr tail [] [] (i := 0) rfl
  simp only [Nat.zero_add, List.nil_append] at hread hlen hsub
  exact ⟨gap, hread, hlen, hsub⟩

/-- One pass divides the stored number by `c`. -/
theorem pass_eq (hs : Exact b c step) (ds : List ℕ) (hds : ∀ d ∈ ds, b * c + d < 2147483648 + b)
    (tail : List ℤ) :
    ∃ junk, (List.range ds.length).foldlM step ⟨ints ds ++ tail, 0, 0⟩ =
      .ok ⟨ints (divide b c ds).1 ++ junk, (divide b c ds).1.length, (divide b c ds).2⟩ := by
  obtain ⟨gap, hread, -, -⟩ := reads_eq hs ds hds tail
  exact ⟨gap ++ tail, by rw [hread, passState, List.append_assoc]⟩

/-- A loop whose first pass divides the number of `ds`, given what the later passes do. -/
theorem convert_of_pass {σ : Type} (hs : Exact b c step) (emit : σ → ℤ → Result σ)
    {passes length : ℕ} {digits junk : List ℤ} {ds : List ℕ}
    (hpass : (List.range length).foldlM step ⟨digits, 0, 0⟩ =
      .ok ⟨ints (divide b c ds).1 ++ junk, (divide b c ds).1.length, (divide b c ds).2⟩)
    (hrest : c ≤ value b ds → ∀ out, convert step emit passes (ints (divide b c ds).1 ++ junk)
      (divide b c ds).1.length out =
        (lowDigits c (value b ds / c)).foldlM (fun o (d : ℕ) => emit o (d : ℤ)) out) (out : σ) :
    convert step emit (passes + 1) digits length out =
      (lowDigits c (value b ds)).foldlM (fun o (d : ℕ) => emit o (d : ℤ)) out := by
  have hc : 0 < c := by have := hs.divisor; omega
  obtain ⟨hdiv, hmod⟩ := value_divide (b := b) hc ds
  have hmore := length_pos_iff (by have := hs.base; omega : 0 < b) (divide_head_ne (b := b) hc ds)
  rw [hdiv] at hmore
  rw [convert, hpass, ok_bind, hmod]
  by_cases hlt : value b ds < c
  · have hdone : ¬ 0 < (divide b c ds).1.length := by
      rw [hmore, Nat.div_eq_of_lt hlt]; simp
    simp only [hdone, if_false, lowDigits_of_lt hlt, List.foldlM_cons, Nat.mod_eq_of_lt hlt]
    rfl
  · have hle : c ≤ value b ds := not_lt.mp hlt
    simp only [hmore.mpr (Nat.div_pos hle hc).ne', if_true, lowDigits_of_le hs.divisor hle,
      List.foldlM_cons]
    congr 1
    funext out
    exact hrest hle out

/-- The conversion loop emits the digits of the other base, least significant first,
and needs one pass for each. The digits may exceed the base as long as no step
overflows. -/
theorem convert_eq {σ : Type} (hs : Exact b c step) {m : ℕ} (hm : b * c + m ≤ m * c + b)
    (hfits : b * c + m ≤ 2147483648 + b) (emit : σ → ℤ → Result σ) :
    ∀ (passes : ℕ) (ds : List ℕ) (tail : List ℤ) (out : σ), (∀ d ∈ ds, d < m) →
      (lowDigits c (value b ds)).length ≤ passes →
      convert step emit passes (ints ds ++ tail) ds.length out =
        (lowDigits c (value b ds)).foldlM (fun o (d : ℕ) => emit o (d : ℤ)) out
  | 0, ds, tail, out, _, hpasses => by
    have h0 : lowDigits c (value b ds) = [] := List.length_eq_zero_iff.mp (by omega)
    by_cases hlt : value b ds < c
    · rw [lowDigits_of_lt hlt] at h0; cases h0
    · rw [lowDigits_of_le hs.divisor (by omega)] at h0; cases h0
  | passes + 1, ds, tail, out, hds, hpasses => by
    have hc : 0 < c := by have := hs.divisor; omega
    obtain ⟨junk, hpass⟩ := pass_eq hs ds (fun d hd => by have := hds d hd; omega) tail
    obtain ⟨hdiv, -⟩ := value_divide (b := b) hc ds
    refine convert_of_pass hs emit hpass (fun hle out => ?_) out
    rw [lowDigits_of_le hs.divisor hle, List.length_cons] at hpasses
    rw [convert_eq hs hm hfits emit passes _ junk out (divide_digit_lt hm hc hds)
      (by rw [hdiv]; omega), hdiv]

end Pass

end Owlchain.Crypto
