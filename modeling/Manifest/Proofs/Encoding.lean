import Manifest.Proofs.Fingerprint
import Mathlib.Data.Nat.Digits.Defs

/-!
# The two forms of a fingerprint

A fingerprint is given as a number and as a text, both of the first eight bytes of a digest.  To
compare them, both are taken for numbers that are written by digits: bytes are digits to the base
256, and the letters of a text in base 64 stand for digits to the base 64 (`Digest.IsBase64`).  The
two numbers are the same but for the zero bits that fill the last letter up, so the texts of as many
bytes are one exactly if their numbers are (`Digest.IsBase64.eq_iff`).

The main statement is `hashString_writes_hash`.
-/

namespace Manifest

namespace Digest

/-- The number that bytes write, most significant first. -/
def bigEndian (bytes : List UInt8) : Nat := Nat.ofDigits 256 (bytes.map UInt8.toNat).reverse

/-- The number that digits to the base 64 write, most significant first. -/
def valueOfSextets (digits : List (Fin 64)) : Nat := Nat.ofDigits 64 (digits.map Fin.val).reverse

/-- The digits have the bits of the bytes, six each, and behind them the zero bits that fill the
last digit up: two for every equals sign of a text. -/
structure Sextets (bytes : List UInt8) (digits : List (Fin 64)) (signs : Nat) : Prop where
  length_eq : 6 * digits.length = 8 * bytes.length + 2 * signs
  signs_lt : signs < 3
  value_eq : valueOfSextets digits = 4 ^ signs * bigEndian bytes

/-- The text writes the bytes in base 64: letters for digits, and as many equals signs as fill the
last group of four up. -/
def IsBase64 (bytes : List UInt8) (text : List Char) : Prop :=
  ∃ digits signs, Sextets bytes digits signs ∧
    text = digits.map (fun d : Fin 64 => letter d) ++ List.replicate signs '='

/-! ### Numbers -/

section Numbers
variable (s t : List UInt8) (digits more : List (Fin 64))

theorem bigEndian_append : bigEndian (s ++ t) = 256 ^ t.length * bigEndian s + bigEndian t := by
  rw [bigEndian, List.map_append, List.reverse_append, Nat.ofDigits_append, List.length_reverse,
    List.length_map, Nat.add_comm]
  rfl

theorem valueOfSextets_append :
    valueOfSextets (digits ++ more) =
      64 ^ more.length * valueOfSextets digits + valueOfSextets more := by
  rw [valueOfSextets, List.map_append, List.reverse_append, Nat.ofDigits_append,
    List.length_reverse, List.length_map, Nat.add_comm]
  rfl

theorem bigEndian_lt : bigEndian s < 256 ^ s.length := by
  have hlt : ∀ d ∈ (s.map UInt8.toNat).reverse, d < 256 := by
    intro d hd
    obtain ⟨x, -, rfl⟩ := List.mem_map.mp (List.mem_reverse.mp hd)
    exact x.toNat_lt
  have h := Nat.ofDigits_lt_base_pow_length (by decide) hlt
  rwa [List.length_reverse, List.length_map] at h

variable {digits more}

theorem eq_of_valueOfSextets (hl : digits.length = more.length)
    (hv : valueOfSextets digits = valueOfSextets more) : digits = more := by
  have hlt : ∀ l : List (Fin 64), ∀ d ∈ (l.map Fin.val).reverse, d < 64 := by
    intro l d hd
    obtain ⟨x, -, rfl⟩ := List.mem_map.mp (List.mem_reverse.mp hd)
    exact x.isLt
  have hd := Nat.ofDigits_inj_of_len_eq (by decide) (by simp [hl]) (hlt digits) (hlt more) hv
  exact List.map_injective_iff.mpr (fun _ _ => Fin.ext) (List.reverse_injective hd)

end Numbers

/-! ### Texts in base 64 -/

theorem letter_injective : Function.Injective fun d : Fin 64 => letter d := by
  have hposition : ∀ d : Fin 64, letters.idxOf (letter d) = d := by decide +kernel
  intro d e h
  refine Fin.ext ?_
  rw [← hposition d, ← hposition e]
  exact congrArg letters.idxOf h

theorem letter_mod (n : Nat) : letter (n % 64) = letter n := by
  rw [letter, letter, Nat.mod_mod]

theorem sextets_one (a : UInt8) :
    Sextets [a] ([a.toNat / 4, a.toNat * 16].map (Fin.ofNat 64)) 2 := by
  have ha := a.toNat_lt
  refine ⟨rfl, by decide, ?_⟩
  simp [valueOfSextets, bigEndian, Nat.ofDigits_cons]
  omega

theorem sextets_two (a b : UInt8) :
    Sextets [a, b]
      ([a.toNat / 4, a.toNat * 16 + b.toNat / 16, b.toNat * 4].map (Fin.ofNat 64)) 1 := by
  have ha := a.toNat_lt
  have hb := b.toNat_lt
  refine ⟨rfl, by decide, ?_⟩
  simp [valueOfSextets, bigEndian, Nat.ofDigits_cons]
  omega

theorem sextets_three (a b c : UInt8) :
    Sextets [a, b, c]
      ([a.toNat / 4, a.toNat * 16 + b.toNat / 16, b.toNat * 4 + c.toNat / 64, c.toNat].map
        (Fin.ofNat 64)) 0 := by
  have ha := a.toNat_lt
  have hb := b.toNat_lt
  have hc := c.toNat_lt
  refine ⟨rfl, by decide, ?_⟩
  simp [valueOfSextets, bigEndian, Nat.ofDigits_cons]
  omega

theorem Sextets.append {s t : List UInt8} {digits more : List (Fin 64)} {signs : Nat}
    (hs : Sextets s digits 0) (ht : Sextets t more signs) :
    Sextets (s ++ t) (digits ++ more) signs := by
  have hpow : 64 ^ more.length = 4 ^ signs * 256 ^ t.length := by
    calc 64 ^ more.length = 2 ^ (6 * more.length) := by rw [pow_mul]; norm_num
      _ = 2 ^ (2 * signs + 8 * t.length) := by rw [ht.length_eq, Nat.add_comm]
      _ = 4 ^ signs * 256 ^ t.length := by rw [pow_add, pow_mul, pow_mul]; norm_num
  refine ⟨?_, ht.signs_lt, ?_⟩
  · have hls := hs.length_eq
    have hlt := ht.length_eq
    rw [List.length_append, List.length_append]
    omega
  · rw [valueOfSextets_append, hs.value_eq, ht.value_eq, hpow, bigEndian_append]
    ring

/-- **What is written in base 64 is in base 64.** -/
theorem isBase64_base64 (bytes : List UInt8) : IsBase64 bytes (base64 bytes) := by
  fun_induction base64 bytes with
  | case1 => exact ⟨[], 0, ⟨rfl, by decide, rfl⟩, rfl⟩
  | case2 a => exact ⟨_, 2, sextets_one a, by simp [letter_mod]⟩
  | case3 a b => exact ⟨_, 1, sextets_two a b, by simp [letter_mod]⟩
  | case4 a b c rest ih =>
    obtain ⟨digits, signs, hd, ht⟩ := ih
    exact ⟨_, signs, (sextets_three a b c).append hd, by simp [letter_mod, ht]⟩

section Comparison
variable {s t : List UInt8} {text other : List Char}

/-- **Texts of as many bytes are one exactly if their numbers are.** -/
theorem IsBase64.eq_iff (hs : IsBase64 s text) (ht : IsBase64 t other)
    (hl : s.length = t.length) : text = other ↔ bigEndian s = bigEndian t := by
  obtain ⟨digits, signs, hd, rfl⟩ := hs
  obtain ⟨more, signs', hm, rfl⟩ := ht
  have hdl := hd.length_eq
  have hml := hm.length_eq
  have hds := hd.signs_lt
  have hms := hm.signs_lt
  obtain rfl : signs = signs' := by omega
  have hlen : digits.length = more.length := by omega
  constructor
  · intro h
    have hmap := (List.append_inj' h rfl).1
    obtain rfl : digits = more := List.map_injective_iff.mpr letter_injective hmap
    have hv := hd.value_eq.symm.trans hm.value_eq
    exact Nat.eq_of_mul_eq_mul_left (by positivity) hv
  · intro h
    have hv : valueOfSextets digits = valueOfSextets more := by
      rw [hd.value_eq, hm.value_eq, h]
    rw [eq_of_valueOfSextets hlen hv]

theorem IsBase64.of_eight (h : IsBase64 s text) (hl : s.length = 8) :
    ∃ letters, text = letters ++ ['='] ∧ letters.length = 11 := by
  obtain ⟨digits, signs, hd, rfl⟩ := h
  have hdl := hd.length_eq
  have hds := hd.signs_lt
  obtain rfl : signs = 1 := by omega
  exact ⟨_, rfl, by rw [List.length_map]; omega⟩

end Comparison

end Digest

namespace Value

open Digest

theorem length_digestBytes (text : String) : (digestBytes text).length = 8 := by
  rw [digestBytes, List.length_take, length_sha256]
  rfl

theorem ofBytes_eq_bigEndian (bytes : List UInt8) : ofBytes bytes = bigEndian bytes := by
  have hfold : ∀ n, bytes.foldl (fun n b => 256 * n + b.toNat) n =
      256 ^ bytes.length * n + bigEndian bytes := by
    induction bytes with
    | nil =>
      intro n
      simp [bigEndian]
    | cons b rest ih =>
      intro n
      have hcons : bigEndian (b :: rest) = 256 ^ rest.length * b.toNat + bigEndian rest := by
        rw [← List.singleton_append, bigEndian_append]
        simp [bigEndian]
      rw [List.foldl_cons, ih, hcons, List.length_cons, pow_succ]
      ring
  rw [ofBytes, hfold]
  simp

theorem exists_bytes_of_hash {v : Value} {n : Nat} (h : v.hash = .ok n) :
    ∃ bytes, bytes.length = 8 ∧ bigEndian bytes = n ∧
      v.hashString = .ok (String.ofList (base64 bytes)) := by
  unfold hash at h
  unfold hashString
  cases ht : v.fingerprintText with
  | error fault =>
    rw [ht] at h
    cases h
  | ok text =>
    rw [ht] at h
    cases h
    exact ⟨digestBytes text, length_digestBytes text, (ofBytes_eq_bigEndian _).symm, rfl⟩

/-- **The text form of a fingerprint writes its number.**  Where a document has a fingerprint, that
is a number of eight bytes, and its text form writes these bytes in base 64, with eleven letters and
an equals sign.  So two documents with fingerprints agree in the one form exactly if they agree in
the other. -/
theorem hashString_writes_hash {v : Value} {n : Nat} (h : v.hash = .ok n) :
    n < 2 ^ 64 ∧
      (∃ bytes letters s, bytes.length = 8 ∧ bigEndian bytes = n ∧ v.hashString = .ok s ∧
        s.length = 12 ∧ s.toList = letters ++ ['='] ∧ IsBase64 bytes s.toList) ∧
      ∀ (w : Value) (m : Nat), w.hash = .ok m → (m = n ↔ w.hashString = v.hashString) := by
  obtain ⟨bytes, hl, rfl, hs⟩ := exists_bytes_of_hash h
  have hb := isBase64_base64 bytes
  obtain ⟨letters, ht, hletters⟩ := hb.of_eight hl
  refine ⟨?_, ⟨bytes, letters, _, hl, rfl, hs, ?_, ?_, ?_⟩, fun w m hw => ?_⟩
  · have hlt := bigEndian_lt bytes
    rw [hl] at hlt
    exact hlt.trans_eq (by norm_num)
  · rw [String.length_ofList, ht, List.length_append, hletters]
    rfl
  · rw [String.toList_ofList, ht]
  · rwa [String.toList_ofList]
  · obtain ⟨others, hlo, rfl, hso⟩ := exists_bytes_of_hash hw
    have hiff := (isBase64_base64 others).eq_iff hb (hlo.trans hl.symm)
    rw [← hiff, hso, hs, Except.ok.injEq, String.ofList_inj]

/-- A fingerprint whose first byte is zero, and one with another key and another value. -/
theorem hashString_writes_hash_of_leading_zero :
    let v := object [("a", string "986")]
    let w := object [("a", string "1")]
    let n := 13537758256421581
    v.hash = .ok n ∧ v.hashString = .ok "ADAYhPft2s0=" ∧ n < 2 ^ 56 ∧
      ∃ m, w.hash = .ok m ∧ (m = n ↔ w.hashString = v.hashString) := by
  intro v w n
  have hv : v.hash = .ok n := by decide +kernel
  have hs : v.hashString = .ok "ADAYhPft2s0=" := by decide +kernel
  have hw : w.hash = .ok 17681116122850800480 := by decide +kernel
  exact ⟨hv, hs, by decide, _, hw, (hashString_writes_hash hv).2.2 w _ hw⟩

end Value

end Manifest
