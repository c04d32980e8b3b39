import Manifest.Proofs.Digits

/-!
# Numbers as texts

The text that a number has in a fingerprint is a sign and a body, and the body shows which of four
kinds the number is of (`Number.Kind`).  So the text determines the number rounded to six decimals
(`rounded_eq_of_fixedText`): magnitudes below `10 ^ 21` are written in millionths, and the others,
which are whole, in digits that read back to them.

Texts with six decimals end six digits behind their point, so that none of them begins another
(`apart_fixedText`).
-/

namespace Manifest

/-- Neither of two texts is a proper beginning of the other. -/
def Text.Apart (s t : String) : Prop :=
  s.toList <+: t.toList ∨ t.toList <+: s.toList → s = t

instance (s t : String) : Decidable (Text.Apart s t) := inferInstanceAs (Decidable (_ → _))

namespace Number

/-! ### Kinds of numbers -/

/-- How a number is written in a fingerprint. -/
inductive Kind where
  | nan
  | infinite
  | huge
  | fixed
deriving DecidableEq

/-- The kind of a number; the huge ones are the finite ones from `10 ^ 21` on. -/
def kind (x : Number) : Kind :=
  if x.isNaN then .nan else if x.isInfinite then .infinite else if x.isHuge then .huge else .fixed

/-- The shortest digits of a number, without zeros at their end. -/
def shortest (x : Number) : List Char := stripZeros (Nat.toDigits 10 x.shortestDigits.1)

/-- The place of the point among the shortest digits. -/
def point (x : Number) : Int :=
  (Nat.toDigits 10 x.shortestDigits.1).length + x.shortestDigits.2

/-- Whether a number is written with a sign. -/
def minus (x : Number) : Bool := x.negative && !x.isNaN && !x.isZero

/-- The text of a number without its sign. -/
def body (x : Number) : String :=
  match x.kind with
  | .nan => "NaN"
  | .infinite => "Infinity"
  | .huge => layOut x.shortest x.point
  | .fixed => millionthsText x.millionths

section Kinds
variable {x y : Number}

theorem kind_spec (x : Number) :
    match x.kind with
    | .nan => x.isNaN = true
    | .infinite => x.isNaN = false ∧ x.isInfinite = true
    | .huge => x.isNaN = false ∧ x.isInfinite = false ∧ x.isHuge = true
    | .fixed => x.isNaN = false ∧ x.isInfinite = false ∧ x.isHuge = false := by
  unfold kind
  cases hn : x.isNaN <;> cases hi : x.isInfinite <;> cases hh : x.isHuge <;> simp

theorem isHuge_of_kind (h : x.kind = .huge) : x.isHuge = true := by
  have hk := kind_spec x
  rw [h] at hk
  exact hk.2.2

theorem isHuge_iff : x.isHuge = true ↔ (10 : ℚ) ^ 21 ≤ x.magnitude := by
  have hvalue : decimalValue 1 21 = (10 : ℚ) ^ 21 := by norm_num [decimalValue]
  rw [isHuge, decide_eq_true_iff, ne_eq, compareDecimal_eq, compare_gt_iff_gt, hvalue,
    not_lt]
  rfl

theorem mantissa_pos_of_isHuge (h : x.isHuge = true) : 0 < x.mantissa := by
  rw [isHuge_iff] at h
  rcases Nat.eq_zero_or_pos x.mantissa with hm | hm
  · rw [magnitude, hm] at h
    norm_num at h
  · exact hm

theorem lt_point_of_isHuge (h : x.isHuge = true) : 21 < x.point := by
  have hlt := (readsBack_shortest (mantissa_pos_of_isHuge h)).2
  have hdigits : x.shortestDigits.1 + 1 ≤ 10 ^ (Nat.toDigits 10 x.shortestDigits.1).length :=
    (Nat.length_toDigits_le_iff (by decide)
      (List.length_pos_iff.mpr Nat.toDigits_ne_nil)).mp le_rfl
  have hpow : (10 : ℚ) ^ (21 : Int) < 10 ^ x.point := by
    calc (10 : ℚ) ^ (21 : Int) ≤ x.magnitude := isHuge_iff.mp h
      _ < ((x.shortestDigits.1 + 1 : Nat) : ℚ) * 10 ^ x.shortestDigits.2 := hlt
      _ ≤ ((10 ^ (Nat.toDigits 10 x.shortestDigits.1).length : Nat) : ℚ) *
            10 ^ x.shortestDigits.2 :=
          mul_le_mul_of_nonneg_right (Nat.cast_le.mpr hdigits) (by positivity)
      _ = 10 ^ x.point := by
          rw [point, zpow_add₀ (by norm_num), zpow_natCast]
          push_cast
          rfl
  exact (zpow_lt_zpow_iff_right₀ (by norm_num)).mp hpow

theorem shortestDigits_pos (h : x.isHuge = true) : 0 < x.shortestDigits.1 := by
  have hm := mantissa_pos_of_isHuge h
  have hd := (readsBack_shortest hm).1.pos hm
  refine Nat.pos_of_ne_zero fun hz => ?_
  rw [shortestValue, decimalValue, hz, Nat.cast_zero, zero_mul] at hd
  exact lt_irrefl 0 hd

theorem isDigit_of_mem_shortest {c : Char} (h : c ∈ x.shortest) : c.isDigit = true :=
  isDigit_of_mem_stripZeros h

theorem toList_body_of_huge (h : x.kind = .huge) :
    ∃ d rest, x.shortest = d :: rest ∧
      x.body.toList =
        d :: (decimalsText rest ++ 'e' :: '+' :: Nat.toDigits 10 (x.point - 1).natAbs) := by
  have hh := isHuge_of_kind h
  obtain ⟨d, rest, hs⟩ := List.exists_cons_of_ne_nil (stripZeros_ne_nil (shortestDigits_pos hh))
  refine ⟨d, rest, hs, ?_⟩
  have hbody : x.body = layOut (d :: rest) x.point := by
    simp only [body, h]
    rw [shortest, hs]
  rw [hbody, toList_layOut (lt_point_of_isHuge hh)]

theorem toList_body_of_fixed (h : x.kind = .fixed) :
    x.body.toList = (millionthsText x.millionths).toList := by
  simp only [body, h]

theorem isZero_iff : x.isZero = true ↔ x.mantissa = 0 := by
  unfold isZero mantissa
  split <;> simp_all

theorem millionths_of_isZero (h : x.isZero = true) : x.millionths = 0 := by
  have hden : 0 < x.denominator := Nat.cast_pos.mp (twoTo_pos _)
  rw [millionths, numerator, isZero_iff.mp h, Nat.zero_mul, Nat.mul_zero, roundHalfUp,
    Nat.mul_zero, Nat.zero_add]
  exact Nat.div_eq_of_lt (by omega)

theorem isZero_of_isInfinite (h : x.isInfinite = true) : x.isZero = false := by
  simp only [isInfinite, Bool.and_eq_true, decide_eq_true_eq] at h
  simp [isZero, h.1]

theorem isZero_of_isHuge (h : x.isHuge = true) : x.isZero = false := by
  have hm := mantissa_pos_of_isHuge h
  cases hz : x.isZero with
  | false => rfl
  | true => exact absurd (isZero_iff.mp hz) hm.ne'

/-- **The text is a sign and a body.** -/
theorem fixedText_eq (x : Number) : x.fixedText = (if x.minus then "-" else "") ++ x.body := by
  unfold fixedText minus body kind
  cases hn : x.isNaN with
  | true => simp [text, hn]
  | false =>
    cases hi : x.isInfinite with
    | true =>
      have hz := isZero_of_isInfinite hi
      cases hs : x.negative <;> simp [text, hn, hi, hz, hs]
    | false =>
      cases hz : x.isZero with
      | true =>
        have hh : x.isHuge = false := by
          cases hh : x.isHuge with
          | false => rfl
          | true =>
            rw [isZero_of_isHuge hh] at hz
            cases hz
        simp [hh, millionths_of_isZero hz]
      | false =>
        cases hh : x.isHuge <;> simp [text, hn, hi, hz, shortest, point]

theorem mem_body_of_fixed (h : x.kind = .fixed) {c : Char} (hc : c ∈ x.body.toList) :
    c.isDigit = true ∨ c ∈ ['.'] := by
  rw [toList_body_of_fixed h, toList_millionthsText, List.mem_append, List.mem_cons] at hc
  rcases hc with hc | hc | hc
  · exact Or.inl (isDigit_of_mem_toDigits hc)
  · exact Or.inr (List.mem_singleton.mpr hc)
  · exact Or.inl (isDigit_of_mem_sixDecimals hc)

theorem mem_body_of_huge (h : x.kind = .huge) {c : Char} (hc : c ∈ x.body.toList) :
    c.isDigit = true ∨ c ∈ ['.', 'e', '+'] := by
  obtain ⟨d, rest, hs, hbody⟩ := toList_body_of_huge h
  have hdigit : ∀ c ∈ d :: rest, c.isDigit = true := fun c hc =>
    isDigit_of_mem_shortest (hs ▸ hc)
  rw [hbody, List.mem_cons, List.mem_append, List.mem_cons, List.mem_cons] at hc
  rcases hc with rfl | hc | rfl | rfl | hc
  · exact Or.inl (hdigit c List.mem_cons_self)
  · have hrest := isDigit_or_of_mem_decimalsText
      (fun c hc => hdigit c (List.mem_cons_of_mem _ hc)) hc
    exact hrest.imp_right fun hpoint => List.mem_cons.mpr (Or.inl (List.mem_singleton.mp hpoint))
  · exact Or.inr (by decide)
  · exact Or.inr (by decide)
  · exact Or.inl (isDigit_of_mem_toDigits hc)

/-- **The letters of a body tell the kinds apart**, and none of them is a sign. -/
theorem mem_body_iff (x : Number) :
    ('N' ∈ x.body.toList ↔ x.kind = .nan) ∧ ('I' ∈ x.body.toList ↔ x.kind = .infinite) ∧
      ('e' ∈ x.body.toList ↔ x.kind = .huge) ∧ '-' ∉ x.body.toList := by
  cases hk : x.kind with
  | nan => simp [body, hk]
  | infinite => simp [body, hk]
  | huge =>
    have he : 'e' ∈ x.body.toList := by
      obtain ⟨d, rest, -, hbody⟩ := toList_body_of_huge hk
      rw [hbody]
      simp
    have hnot : ∀ c : Char, c.isDigit = false → c ∉ ['.', 'e', '+'] → c ∉ x.body.toList :=
      fun _ => notMem_of_isDigit fun _ => mem_body_of_huge hk
    exact ⟨iff_of_false (hnot 'N' (by decide) (by decide)) nofun,
      iff_of_false (hnot 'I' (by decide) (by decide)) nofun, iff_of_true he rfl,
      hnot '-' (by decide) (by decide)⟩
  | fixed =>
    have hnot : ∀ c : Char, c.isDigit = false → c ∉ ['.'] → c ∉ x.body.toList :=
      fun _ => notMem_of_isDigit fun _ => mem_body_of_fixed hk
    exact ⟨iff_of_false (hnot 'N' (by decide) (by decide)) nofun,
      iff_of_false (hnot 'I' (by decide) (by decide)) nofun,
      iff_of_false (hnot 'e' (by decide) (by decide)) nofun, hnot '-' (by decide) (by decide)⟩

theorem kind_eq_of_body_eq (h : x.body = y.body) : x.kind = y.kind := by
  obtain ⟨hxn, hxi, hxe, -⟩ := mem_body_iff x
  obtain ⟨hyn, hyi, hye, -⟩ := mem_body_iff y
  rw [h] at hxn hxi hxe
  have hn := hxn.symm.trans hyn
  have hi := hxi.symm.trans hyi
  have he := hxe.symm.trans hye
  cases hx : x.kind <;> cases hy : y.kind <;> simp_all

end Kinds

/-! ### Signs -/

section Sign
variable {x y : Number}

theorem body_ne_nil (x : Number) : x.body.toList ≠ [] := by
  cases hk : x.kind with
  | nan => simp [body, hk]
  | infinite => simp [body, hk]
  | huge =>
    obtain ⟨d, rest, -, hbody⟩ := toList_body_of_huge hk
    rw [hbody]
    exact List.cons_ne_nil _ _
  | fixed =>
    rw [toList_body_of_fixed hk, toList_millionthsText]
    simp

theorem toList_fixedText (x : Number) :
    x.fixedText.toList = if x.minus then '-' :: x.body.toList else x.body.toList := by
  rw [fixedText_eq, String.toList_append]
  cases x.minus <;> rfl

/-- A text that begins another one has its sign, and its body begins the other's. -/
theorem minus_eq_of_begins (h : x.fixedText.toList <+: y.fixedText.toList) :
    x.minus = y.minus ∧ x.body.toList <+: y.body.toList := by
  have hx := (mem_body_iff x).2.2.2
  have hy := (mem_body_iff y).2.2.2
  rw [toList_fixedText, toList_fixedText] at h
  cases hmx : x.minus with
  | true =>
    cases hmy : y.minus with
    | true =>
      rw [hmx, hmy, if_pos rfl, if_pos rfl, List.cons_prefix_cons] at h
      exact ⟨rfl, h.2⟩
    | false =>
      rw [hmx, hmy, if_pos rfl, if_neg Bool.false_ne_true] at h
      exact absurd (h.subset List.mem_cons_self) hy
  | false =>
    rw [hmx, if_neg Bool.false_ne_true] at h
    cases hmy : y.minus with
    | true =>
      obtain ⟨d, rest, hbody⟩ := List.exists_cons_of_ne_nil x.body_ne_nil
      rw [hmy, if_pos rfl, hbody, List.cons_prefix_cons] at h
      rw [hbody, h.1] at hx
      exact absurd List.mem_cons_self hx
    | false =>
      rw [hmy, if_neg Bool.false_ne_true] at h
      exact ⟨rfl, h⟩

end Sign

/-! ### Texts of rounded numbers -/

/-- A number rounded to six decimals. -/
inductive Rounded where
  | nan
  | infinite (negative : Bool)
  | millionths (n : Int)
deriving DecidableEq

/-- Rounds a number to six decimals, exactly. -/
def rounded (x : Number) : Rounded :=
  if x.isNaN then .nan
  else if x.isInfinite then .infinite x.negative
  else .millionths (if x.negative then -x.millionths else x.millionths)

section Texts
variable {x y : Number}

theorem minus_eq_negative (hn : x.isNaN = false) (hz : x.isZero = false) :
    x.minus = x.negative := by
  simp [minus, hn, hz]

theorem rounded_of_fixed (h : x.kind = .fixed) :
    x.rounded = .millionths (if x.minus then -x.millionths else x.millionths) := by
  have hk := kind_spec x
  rw [h] at hk
  obtain ⟨hn, hi, -⟩ := hk
  simp only [rounded, hn, hi, Bool.false_eq_true, if_false]
  cases hz : x.isZero with
  | true => simp [millionths_of_isZero hz]
  | false => rw [minus_eq_negative hn hz]

/-- **The text of a huge number determines it.** -/
theorem eq_of_huge (hx : x.kind = .huge) (hy : y.kind = .huge) (hm : x.minus = y.minus)
    (hb : x.body = y.body) : x = y := by
  have hkx := kind_spec x
  have hky := kind_spec y
  rw [hx] at hkx
  rw [hy] at hky
  obtain ⟨hnx, -, hhx⟩ := hkx
  obtain ⟨hny, -, hhy⟩ := hky
  rw [minus_eq_negative hnx (isZero_of_isHuge hhx),
    minus_eq_negative hny (isZero_of_isHuge hhy)] at hm
  simp only [body, hx, hy] at hb
  obtain ⟨hs, hp⟩ := layOut_inj (stripZeros_ne_nil (shortestDigits_pos hhx))
    (stripZeros_ne_nil (shortestDigits_pos hhy)) (fun _ hc => isDigit_of_mem_shortest hc)
    (lt_point_of_isHuge hhx) (lt_point_of_isHuge hhy) hb
  exact eq_of_shortestValue (mantissa_pos_of_isHuge hhx) (mantissa_pos_of_isHuge hhy) hm
    (decimalValue_eq_of_stripZeros hs hp)

/-- **Numbers with one text are one number when they are rounded.** -/
theorem rounded_eq_of_fixedText (h : x.fixedText = y.fixedText) : x.rounded = y.rounded := by
  have hpre : x.fixedText.toList <+: y.fixedText.toList := ⟨[], by rw [h, List.append_nil]⟩
  have hpre' : y.fixedText.toList <+: x.fixedText.toList := ⟨[], by rw [h, List.append_nil]⟩
  obtain ⟨hm, hxy⟩ := minus_eq_of_begins hpre
  obtain ⟨-, hyx⟩ := minus_eq_of_begins hpre'
  have hb : x.body = y.body := String.toList_injective (hxy.eq_of_length_le hyx.length_le)
  have hk := kind_eq_of_body_eq hb
  have hkx := kind_spec x
  have hky := kind_spec y
  cases hx : x.kind with
  | nan =>
    rw [hx] at hk hkx
    rw [← hk] at hky
    simp only [rounded, hkx, hky, if_true]
  | infinite =>
    rw [hx] at hk hkx
    rw [← hk] at hky
    rw [minus_eq_negative hkx.1 (isZero_of_isInfinite hkx.2),
      minus_eq_negative hky.1 (isZero_of_isInfinite hky.2)] at hm
    simp only [rounded, hkx.1, hky.1, hkx.2, hky.2, hm, Bool.false_eq_true, if_false, if_true]
  | huge => rw [eq_of_huge hx (hk ▸ hx) hm hb]
  | fixed =>
    have hy : y.kind = .fixed := hk ▸ hx
    have hn : x.millionths = y.millionths := by
      refine millionthsText_begins ?_
      rw [← toList_body_of_fixed hx, ← toList_body_of_fixed hy, hb]
    rw [rounded_of_fixed hx, rounded_of_fixed hy, hm, hn]

theorem fixedText_eq_of_begins (hx : x.kind ≠ .huge) (hy : y.kind ≠ .huge)
    (h : x.fixedText.toList <+: y.fixedText.toList) : x.fixedText = y.fixedText := by
  obtain ⟨hm, hb⟩ := minus_eq_of_begins h
  obtain ⟨hxn, hxi, -, -⟩ := mem_body_iff x
  obtain ⟨hyn, hyi, -, -⟩ := mem_body_iff y
  have hbody : x.body = y.body := by
    cases hkx : x.kind with
    | nan =>
      have hky := hyn.mp (hb.subset (hxn.mpr hkx))
      simp only [body, hkx, hky]
    | infinite =>
      have hky := hyi.mp (hb.subset (hxi.mpr hkx))
      simp only [body, hkx, hky]
    | huge => exact absurd hkx hx
    | fixed =>
      have hpoint : '.' ∈ y.body.toList := by
        refine hb.subset ?_
        rw [toList_body_of_fixed hkx, toList_millionthsText]
        simp
      cases hky : y.kind with
      | nan => simp [body, hky] at hpoint
      | infinite => simp [body, hky] at hpoint
      | huge => exact absurd hky hy
      | fixed =>
        rw [toList_body_of_fixed hkx, toList_body_of_fixed hky] at hb
        simp only [body, hkx, hky, millionthsText_begins hb]
  rw [fixedText_eq, fixedText_eq, hm, hbody]

/-- **Texts of numbers that are not huge are apart.** -/
theorem apart_fixedText (hx : x.kind ≠ .huge) (hy : y.kind ≠ .huge) :
    Text.Apart x.fixedText y.fixedText := by
  rintro (h | h)
  · exact fixedText_eq_of_begins hx hy h
  · exact (fixedText_eq_of_begins hy hx h).symm

end Texts

end Number

end Manifest
