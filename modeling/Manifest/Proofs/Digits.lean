import Mathlib.Data.List.Infix
import Mathlib.Data.List.TakeWhile
import Manifest.Number.Fixed
import Manifest.Proofs.ReadBack

/-!
# Digits

Digits are read back from the two forms in which a fingerprint has numbers: with an exponent
(`layOut_inj`), where the zeros at their end are stripped without changing the value
(`decimalValue_eq_of_stripZeros`), and with a whole part and six decimals, where no text begins
another one (`millionthsText_begins`).
-/

namespace Manifest.Number

/-! ### Digits and marks -/

theorem notMem_of_isDigit {l marks : List Char} (h : ∀ c ∈ l, c.isDigit = true ∨ c ∈ marks)
    {c : Char} (hd : c.isDigit = false) (hc : c ∉ marks) : c ∉ l := by
  intro hmem
  rcases h c hmem with hdigit | hmark
  · rw [hd] at hdigit
    cases hdigit
  · exact hc hmark

theorem toDigits_inj {m n : Nat} (h : Nat.toDigits 10 m = Nat.toDigits 10 n) : m = n := by
  rw [← @Nat.ofDigitChars_ten_toDigits m, h, Nat.ofDigitChars_ten_toDigits]

theorem isDigit_of_mem_toDigits {n : Nat} {c : Char} (h : c ∈ Nat.toDigits 10 n) :
    c.isDigit = true :=
  Nat.isDigit_of_mem_toDigits (by decide) (by decide) h

/-! ### Zeros at the end -/

theorem ofDigitChars_replicate (k n : Nat) :
    Nat.ofDigitChars 10 (List.replicate k '0') n = n * 10 ^ k := by
  induction k generalizing n with
  | zero => simp [Nat.ofDigitChars]
  | succ k ih =>
    rw [List.replicate_succ, Nat.ofDigitChars_cons, ih, Nat.sub_self, Nat.add_zero, pow_succ]
    ring

theorem exists_eq_stripZeros_append (digits : List Char) :
    ∃ k, digits = stripZeros digits ++ List.replicate k '0' := by
  have hzeros : digits.reverse.takeWhile (· = '0') =
      List.replicate (digits.reverse.takeWhile (· = '0')).length '0' :=
    List.eq_replicate_of_mem fun c hc => by simpa using List.mem_takeWhile_imp hc
  refine ⟨(digits.reverse.takeWhile (· = '0')).length, ?_⟩
  calc digits
      = (digits.reverse.takeWhile (· = '0') ++ digits.reverse.dropWhile (· = '0')).reverse := by
        rw [List.takeWhile_append_dropWhile, List.reverse_reverse]
    _ = stripZeros digits ++ (digits.reverse.takeWhile (· = '0')).reverse := by
        rw [List.reverse_append, stripZeros]
    _ = _ := by
        rw [hzeros, List.reverse_replicate, List.length_replicate]

theorem decimalValue_eq_of_stripZeros {c e : Nat} {t u : Int}
    (hs : stripZeros (Nat.toDigits 10 c) = stripZeros (Nat.toDigits 10 e))
    (hp : (Nat.toDigits 10 c).length + t = (Nat.toDigits 10 e).length + u) :
    decimalValue c t = decimalValue e u := by
  obtain ⟨k, hk⟩ := exists_eq_stripZeros_append (Nat.toDigits 10 c)
  obtain ⟨l, hl⟩ := exists_eq_stripZeros_append (Nat.toDigits 10 e)
  have hvalue : ∀ {n m : Nat} {s : List Char},
      Nat.toDigits 10 n = s ++ List.replicate m '0' → n = Nat.ofDigitChars 10 s 0 * 10 ^ m := by
    intro n m s hn
    rw [← ofDigitChars_replicate, ← Nat.ofDigitChars_append, ← hn, Nat.ofDigitChars_ten_toDigits]
  have hexp : (k : Int) + t = l + u := by
    have hlc := congrArg List.length hk
    have hle := congrArg List.length hl
    rw [List.length_append, List.length_replicate] at hlc hle
    rw [hs] at hlc
    omega
  rw [decimalValue, decimalValue, hvalue hk, hvalue hl, hs]
  push_cast
  rw [mul_assoc, mul_assoc, ← zpow_natCast (10 : ℚ) k, ← zpow_natCast (10 : ℚ) l,
    ← zpow_add₀ (by norm_num), ← zpow_add₀ (by norm_num), hexp]

theorem stripZeros_ne_nil {c : Nat} (h : 0 < c) : stripZeros (Nat.toDigits 10 c) ≠ [] := by
  intro hs
  obtain ⟨k, hk⟩ := exists_eq_stripZeros_append (Nat.toDigits 10 c)
  have hc : c = 0 := by
    rw [← @Nat.ofDigitChars_ten_toDigits c, hk, hs, List.nil_append, ofDigitChars_replicate,
      Nat.zero_mul]
  omega

theorem isDigit_of_mem_stripZeros {c : Nat} {d : Char}
    (h : d ∈ stripZeros (Nat.toDigits 10 c)) : d.isDigit = true := by
  obtain ⟨k, hk⟩ := exists_eq_stripZeros_append (Nat.toDigits 10 c)
  refine isDigit_of_mem_toDigits (n := c) ?_
  rw [hk]
  exact List.mem_append_left _ h

/-! ### Digits with an exponent -/

/-- The digits behind the first one, with the point before them. -/
def decimalsText : List Char → List Char
  | [] => []
  | d :: rest => '.' :: d :: rest

theorem isDigit_or_of_mem_decimalsText {rest : List Char} (h : ∀ c ∈ rest, c.isDigit = true)
    {c : Char} (hc : c ∈ decimalsText rest) : c.isDigit = true ∨ c ∈ ['.'] := by
  cases rest with
  | nil => cases hc
  | cons d rest =>
    rcases List.mem_cons.mp hc with hc | hc
    · exact Or.inr (List.mem_singleton.mpr hc)
    · exact Or.inl (h c hc)

theorem toList_layOut {point : Int} (hp : 21 < point) (d : Char) (rest : List Char) :
    (layOut (d :: rest) point).toList =
      d :: (decimalsText rest ++ 'e' :: '+' :: Nat.toDigits 10 (point - 1).natAbs) := by
  have hfirst : ¬ (0 < point ∧ point ≤ 21) := by omega
  have hsecond : ¬ (-6 < point ∧ point ≤ 0) := by omega
  have hsign : ¬ point - 1 < 0 := by omega
  cases rest with
  | nil => simp [layOut, hfirst, hsecond, exponentText, hsign, decimalsText]
  | cons d' rest => simp [layOut, hfirst, hsecond, exponentText, hsign, decimalsText]

theorem layOut_inj {s t : List Char} {p q : Int} (hs : s ≠ []) (ht : t ≠ [])
    (hd : ∀ c ∈ s, c.isDigit = true) (hp : 21 < p) (hq : 21 < q) (h : layOut s p = layOut t q) :
    s = t ∧ p = q := by
  obtain ⟨d, s, rfl⟩ := List.exists_cons_of_ne_nil hs
  obtain ⟨d', t, rfl⟩ := List.exists_cons_of_ne_nil ht
  have hdecimals : 'e' ∉ decimalsText s :=
    notMem_of_isDigit (fun _ => isDigit_or_of_mem_decimalsText fun c hc =>
      hd c (List.mem_cons_of_mem _ hc)) (by decide) (by decide)
  have hexponent : ∀ n, 'e' ∉ '+' :: Nat.toDigits 10 n := by
    intro n
    rw [List.mem_cons, not_or]
    exact ⟨by decide, fun hmem => absurd (isDigit_of_mem_toDigits hmem) (by decide)⟩
  have hlist := congrArg String.toList h
  rw [toList_layOut hp, toList_layOut hq, List.cons.injEq] at hlist
  obtain ⟨rfl, hrest⟩ := hlist
  rw [List.append_cons_inj_of_notMem hdecimals (hexponent _), List.cons.injEq] at hrest
  obtain ⟨hdec, -, -, hexp⟩ := hrest
  have hpq := toDigits_inj hexp
  refine ⟨?_, by omega⟩
  cases s <;> cases t <;> simp_all [decimalsText]

/-! ### Whole parts and six decimals -/

/-- The six decimals of a count of millionths. -/
def sixDecimals (n : Nat) : List Char :=
  List.replicate (6 - (Nat.toDigits 10 (n % 1000000)).length) '0' ++ Nat.toDigits 10 (n % 1000000)

theorem toList_millionthsText (n : Nat) :
    (millionthsText n).toList = Nat.toDigits 10 (n / 1000000) ++ '.' :: sixDecimals n := by
  simp [millionthsText, sixDecimals]

theorem length_sixDecimals (n : Nat) : (sixDecimals n).length = 6 := by
  have h : (Nat.toDigits 10 (n % 1000000)).length ≤ 6 :=
    (Nat.length_toDigits_le_iff (by decide) (by decide)).mpr (Nat.mod_lt _ (by decide))
  rw [sixDecimals, List.length_append, List.length_replicate]
  omega

theorem isDigit_of_mem_sixDecimals {n : Nat} {c : Char} (h : c ∈ sixDecimals n) :
    c.isDigit = true := by
  rcases List.mem_append.mp h with h | h
  · rw [(List.mem_replicate.mp h).2]
    decide
  · exact isDigit_of_mem_toDigits h

theorem millionthsText_begins {m n : Nat}
    (h : (millionthsText m).toList <+: (millionthsText n).toList) : m = n := by
  obtain ⟨rest, h⟩ := h
  have hpoint : ∀ {digits : List Char}, (∀ c ∈ digits, c.isDigit = true) → '.' ∉ digits :=
    fun hd hmem => absurd (hd _ hmem) (by decide)
  rw [toList_millionthsText, toList_millionthsText, List.append_assoc, List.cons_append,
    eq_comm, List.append_cons_inj_of_notMem (hpoint fun _ => isDigit_of_mem_toDigits)
      (hpoint fun _ => isDigit_of_mem_sixDecimals)] at h
  obtain ⟨hwhole, -, hdec⟩ := h
  have hlen := congrArg List.length hdec
  rw [List.length_append, length_sixDecimals, length_sixDecimals] at hlen
  obtain rfl : rest = [] := List.length_eq_zero_iff.mp (by omega)
  rw [List.append_nil] at hdec
  have hread : ∀ k, Nat.ofDigitChars 10 (sixDecimals k) 0 = k % 1000000 := by
    intro k
    rw [sixDecimals, Nat.ofDigitChars_append, ofDigitChars_replicate, Nat.zero_mul,
      Nat.ofDigitChars_ten_toDigits]
  have hmod : n % 1000000 = m % 1000000 := by rw [← hread, hdec, hread]
  have hdiv := toDigits_inj hwhole
  omega

end Manifest.Number
